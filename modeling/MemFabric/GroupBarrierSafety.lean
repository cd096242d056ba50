/-
Safety of the group barrier within the limit on call numbers.

`BarrierInv` relates the ranks to the keys in the store.  All ranks are in the latest call that
any rank has begun, or in the one before; the counter of the latest call is the number of ranks
in it, and its wait key is there only when all are.  The next call finds no key under its names
(`BarrierInv.fresh`).
-/
import MemFabric.GroupBarrier

namespace GroupEngine

open Function Finset Option

open ConfigStore SharedState SeqMap

variable {n : ℕ}

/-! ### The invariant -/

/-- The ranks that have performed the `Add` of call `k`. -/
def arrived (s : BarrierState n) (k : ℕ) : Finset (Fin n) :=
  Finset.univ.filter fun j => k ≤ (s.rank j).adds

/-- Why a key of call `r` may still be in the store when call `top` is the latest: the call is
recent, no call deletes its keys, or a rank that `pending` holds for is about to. -/
def MayRemain (s : BarrierState n) (top : ℕ) (pending : BarrierPc → Prop) (r : ℕ) : Prop :=
  top ≤ r + 1 ∨ groupSn (r + 2) ≤ removeInterval ∨
    ∃ i, (s.rank i).adds = r + 2 ∧ pending (s.rank i).pc

def BarrierPc.RemovesAdd (pc : BarrierPc) : Prop := ∃ val, pc = .removeAdd val

def BarrierPc.RemovesWait (pc : BarrierPc) : Prop := pc.RemovesAdd ∨ ∃ val, pc = .removeWait val

/-- The sequence number of a rank is that of its call, `top` is its call or the
next one, and only the first rank of a call deletes keys. -/
structure BarrierRank.Ok (top : ℕ) (r : BarrierRank) : Prop where
  sn_eq : r.barrierGroupSn = groupSn r.adds
  outside : r.pc = .add → r.adds = r.returns
  inside : r.pc ≠ .add → r.adds = r.returns + 1
  le_top : r.adds ≤ top
  near : top ≤ r.adds + 1
  removing : r.pc.RemovesWait → removeInterval < r.barrierGroupSn
  first : ∀ val, r.pc = .removeAdd val ∨ r.pc = .removeWait val → val = 1

/-- Every key of the role in the store belongs to a call for which it may remain. -/
def KeysRemain (version : ℤ) (s : BarrierState n) (top : ℕ) (role : KeyRole)
    (pending : BarrierPc → Prop) : Prop :=
  ∀ sn, s.store (groupKey version sn role) ≠ none →
    ∃ k, 0 < k ∧ k ≤ top ∧ groupSn k = sn ∧ MayRemain s top pending k

/-- Call `top` is the latest that any rank has begun. -/
structure BarrierInv (version : ℤ) (s : BarrierState n) (top : ℕ) : Prop where
  limit : top ≤ barrierLimit
  ranks : ∀ i, (s.rank i).Ok top
  begun : 0 < top → ∃ i, (s.rank i).adds = top
  noEarly : NoEarlyReturn s
  setting : ∀ i, (s.rank i).pc = .set → ∀ j, (s.rank i).adds ≤ (s.rank j).adds
  counter : 0 < top → s.store (groupKey version (groupSn top) .barrierAdd) =
    some (Decimal.ofInt (arrived s top).card)
  opened : s.store (groupKey version (groupSn top) .barrierWait) ≠ none → ∀ j, (s.rank j).adds = top
  addKeys : KeysRemain version s top .barrierAdd BarrierPc.RemovesAdd
  waitKeys : KeysRemain version s top .barrierWait BarrierPc.RemovesWait

theorem removeSn_eq {a : ℕ} (h : removeInterval < groupSn a) :
    groupSn a - removeInterval = groupSn (a - 2) := by
  simp only [groupSn, removeInterval] at h ⊢
  omega

variable {version : ℤ} {s : BarrierState n} {top : ℕ}

variable {pending : BarrierPc → Prop}

/-- Keys that may remain belong to the last three calls before `top`, or to a
call whose keys no call deletes. -/
theorem BarrierInv.recent (hinv : BarrierInv version s top) {k : ℕ}
    (h : MayRemain s top pending k) : top ≤ k + 3 ∨ groupSn (k + 2) ≤ removeInterval := by
  rcases h with h | h | ⟨i, hi, -⟩
  · exact .inl (by omega)
  · exact .inr h
  · have hnear := (hinv.ranks i).near
    exact .inl (by omega)

theorem BarrierInv.fresh (hinv : BarrierInv version s top) (hlimit : top < barrierLimit)
    {role : KeyRole} (h : KeysRemain version s top role pending) :
    s.store (groupKey version (groupSn (top + 1)) role) = none := by
  by_contra hkey
  obtain ⟨k, hpos, hle, hsn, hremain⟩ := h _ hkey
  have hrecent := hinv.recent hremain
  simp only [groupSn, removeInterval, barrierLimit] at *
  omega

/-! ### Moving one rank -/

section Move

variable {i : Fin n} {rank : BarrierRank} {store : SeqMap} {top' : ℕ}

theorem adds_move (h : rank.adds = (s.rank i).adds) (j : Fin n) :
    ((s.move i rank store).rank j).adds = (s.rank j).adds :=
  map_move BarrierRank.adds h j

theorem MayRemain.move {k : ℕ} (h : MayRemain s top pending k)
    (hi : (s.rank i).adds = k + 2 → pending (s.rank i).pc →
      rank.adds = k + 2 ∧ pending rank.pc) : MayRemain (s.move i rank store) top pending k := by
  rcases h with h | h | ⟨j, hadds, hpend⟩
  · exact .inl h
  · exact .inr (.inl h)
  refine .inr (.inr ⟨j, ?_⟩)
  rcases eq_or_ne j i with rfl | hne
  · rw [move_rank_self]
    exact hi hadds hpend
  · rw [move_rank_of_ne hne]
    exact ⟨hadds, hpend⟩

variable {role : KeyRole} {value : Option Bytes}

section

variable (h : KeysRemain version s top role pending)
include h

theorem KeysRemain.move (htop : top ≤ top') (hnew : ∀ sn, store (groupKey version sn role) ≠ none →
      s.store (groupKey version sn role) ≠ none ∨
        ∃ k, 0 < k ∧ k ≤ top' ∧ groupSn k = sn ∧ top' ≤ k + 1)
    (hold : ∀ k ≤ top, store (groupKey version (groupSn k) role) ≠ none →
      MayRemain s top pending k → MayRemain (s.move i rank store) top' pending k) :
    KeysRemain version (s.move i rank store) top' role pending := by
  intro sn hkey
  rcases hnew sn hkey with hkey' | ⟨k, hpos, hle, hsn, hk⟩
  · obtain ⟨k, hpos, hle, rfl, hremain⟩ := h sn hkey'
    exact ⟨k, hpos, hle.trans htop, rfl, hold k hle hkey hremain⟩
  · exact ⟨k, hpos, hle, hsn, .inl hk⟩

theorem KeysRemain.moveOther {role' : KeyRole} {sn : ℕ} (htop : top ≤ top') (hrole : role ≠ role')
    (hold : ∀ k ≤ top, MayRemain s top pending k → MayRemain
      (s.move i rank (update s.store (groupKey version sn role') value)) top' pending k) :
    KeysRemain version (s.move i rank (update s.store (groupKey version sn role') value))
      top' role pending := by
  refine h.move htop (fun sn' hkey => .inl ?_) fun k hk _ => hold k hk
  rwa [update_groupKey_of_role hrole] at hkey

theorem KeysRemain.moveRecent {k : ℕ}
    (htop : top ≤ top') (hpos : 0 < k) (hle : k ≤ top') (hrecent : top' ≤ k + 1)
    (hold : ∀ l ≤ top, MayRemain s top pending l → MayRemain (s.move i rank
      (update s.store (groupKey version (groupSn k) role) value)) top' pending l) :
    KeysRemain version (s.move i rank
      (update s.store (groupKey version (groupSn k) role) value)) top' role pending := by
  refine h.move htop (fun sn hkey => ?_) fun l hl _ => hold l hl
  rcases eq_or_ne sn (groupSn k) with rfl | hne
  · exact .inr ⟨k, hpos, hle, rfl, hrecent⟩
  · rw [update_of_ne (groupKey_ne_of_sn hne _ _)] at hkey
    exact .inl hkey

end

theorem BarrierInv.moveInside (hinv : BarrierInv version s top)
    (hadds : rank.adds = (s.rank i).adds) (hret : ∀ j, rank.returns ≤ (s.rank j).adds)
    (hok : rank.Ok top) (hsetting : rank.pc = .set → ∀ j, (s.rank i).adds ≤ (s.rank j).adds)
    (hcnt : store (groupKey version (groupSn top) .barrierAdd) =
      s.store (groupKey version (groupSn top) .barrierAdd))
    (hopened : store (groupKey version (groupSn top) .barrierWait) ≠ none →
      ∀ j, (s.rank j).adds = top)
    (hadd : KeysRemain version (s.move i rank store) top .barrierAdd BarrierPc.RemovesAdd)
    (hwait : KeysRemain version (s.move i rank store) top .barrierWait BarrierPc.RemovesWait) :
    BarrierInv version (s.move i rank store) top where
  limit := hinv.limit
  ranks := forall_move (p := fun _ (r : BarrierRank) => r.Ok top) hok fun j _ => hinv.ranks j
  begun h := by
    simp only [adds_move hadds]
    exact hinv.begun h
  noEarly j l := by
    rw [adds_move hadds]
    exact forall_move (p := fun _ (r : BarrierRank) => r.returns ≤ (s.rank l).adds) (hret l)
      (fun j _ => hinv.noEarly j l) j
  setting j := by
    simp only [adds_move hadds]
    exact forall_move (p := fun j (r : BarrierRank) => r.pc = .set →
      ∀ l, (s.rank j).adds ≤ (s.rank l).adds) hsetting (fun j _ => hinv.setting j) j
  counter h := by
    simp only [arrived, adds_move hadds]
    exact hcnt.trans (hinv.counter h)
  opened h := by
    simp only [adds_move hadds]
    exact hopened h
  addKeys := hadd
  waitKeys := hwait

end Move

/-! ### Steps inside a call -/

section Inside

variable {i : Fin n} {val : ℤ}

theorem ne_none_of_removed {m : SeqMap} {key removed : Key}
    (h : update m removed none key ≠ none) : key ≠ removed ∧ m key ≠ none := by
  rw [update_apply] at h
  split at h
  case isTrue => exact absurd rfl h
  case isFalse hne => exact ⟨hne, h⟩

theorem KeysRemain.removed {role : KeyRole} {pending : BarrierPc → Prop} {rank : BarrierRank}
    (h : KeysRemain version s top role pending) :
    KeysRemain version (s.move i rank
      (update s.store (groupKey version (groupSn ((s.rank i).adds - 2)) role) none))
      top role pending := by
  refine h.move le_rfl (fun sn hkey => .inl (ne_none_of_removed hkey).2) ?_
  intro k _ hkey hremain
  refine hremain.move fun hadds _ => absurd ?_ (ne_none_of_removed hkey).1
  rw [hadds, Nat.add_sub_cancel]

theorem not_removesWait {pc : BarrierPc} (h : pc = .add ∨ pc = .set ∨ pc = .get) :
    ¬ pc.RemovesWait := by
  rcases h with rfl | rfl | rfl <;> simp [BarrierPc.RemovesWait, BarrierPc.RemovesAdd]

theorem barrierWaitPc_eq (size : ℕ) (val : ℤ) :
    barrierWaitPc size val = .set ∨ barrierWaitPc size val = .get := by
  rw [barrierWaitPc]
  split
  · exact .inl rfl
  · exact .inr rfl

theorem BarrierRank.Ok.goto {r : BarrierRank} {pc : BarrierPc} (h : r.Ok top)
    (hin : r.pc ≠ .add) (hpc : pc = .set ∨ pc = .get) : BarrierRank.Ok top { r with pc := pc } where
  sn_eq := h.sn_eq
  outside hadd := by
    rcases hpc with rfl | rfl <;> cases hadd
  inside _ := h.inside hin
  le_top := h.le_top
  near := h.near
  removing hremove := absurd hremove (not_removesWait (.inr hpc))
  first val hval := by
    rcases hpc with rfl | rfl <;> simp at hval

theorem eq_of_barrierWaitPc {size : ℕ} {val : ℤ} (h : barrierWaitPc size val = .set) :
    val = size := by
  by_contra hne
  rw [barrierWaitPc, if_neg hne] at h
  cases h

theorem le_of_barrierWaitPc_one (h : barrierWaitPc n 1 = .set) (f : Fin n → ℕ) (i j : Fin n) :
    f i ≤ f j := by
  have hn : (1 : ℤ) = n := eq_of_barrierWaitPc h
  have hij : i = j := Fin.ext (by omega)
  rw [hij]

section

variable (hinv : BarrierInv version s top)
include hinv

theorem BarrierInv.removeAdd (hpc : (s.rank i).pc = .removeAdd val) :
    BarrierInv version (s.move i { s.rank i with pc := .removeWait val } (s.store.remove
      (groupKey version ((s.rank i).barrierGroupSn - removeInterval) .barrierAdd)).1) top := by
  have hok := hinv.ranks i
  have hsn : removeInterval < (s.rank i).barrierGroupSn := hok.removing (.inl ⟨val, hpc⟩)
  have htop := hok.le_top
  have hnear := hok.near
  have hrank : BarrierRank.Ok top { s.rank i with pc := .removeWait val } := by
    refine ⟨hok.sn_eq, by simp, fun _ => hok.inside (by simp [hpc]), htop, hnear, fun _ => hsn, ?_⟩
    intro val' h
    rcases h with h | h
    · cases h
    · cases h
      exact hok.first val (.inl hpc)
  rw [hok.sn_eq] at hsn
  rw [hok.sn_eq, removeSn_eq hsn, remove_fst]
  refine hinv.moveInside rfl (hinv.noEarly i) hrank (by simp) ?_ ?_ hinv.addKeys.removed ?_
  · -- the counter of the latest call is two or three calls younger
    have hne : groupSn top ≠ groupSn ((s.rank i).adds - 2) := by
      simp only [groupSn, removeInterval] at *
      omega
    rw [update_of_ne (groupKey_ne_of_sn hne _ _)]
  · rw [update_groupKey_of_role (by decide)]
    exact hinv.opened
  · refine hinv.waitKeys.moveOther le_rfl (by decide) fun k _ hremain => ?_
    exact hremain.move fun hadds _ => ⟨hadds, .inr ⟨val, rfl⟩⟩

theorem BarrierInv.removeWait (hpc : (s.rank i).pc = .removeWait val) :
    BarrierInv version (s.move i { s.rank i with pc := barrierWaitPc n val } (s.store.remove
      (groupKey version ((s.rank i).barrierGroupSn - removeInterval) .barrierWait)).1) top := by
  have hok := hinv.ranks i
  have hsn : removeInterval < (s.rank i).barrierGroupSn := hok.removing (.inr ⟨val, hpc⟩)
  have hval : val = 1 := hok.first val (.inr hpc)
  rw [hok.sn_eq] at hsn
  rw [hok.sn_eq, removeSn_eq hsn, remove_fst]
  refine hinv.moveInside rfl (hinv.noEarly i) (hok.goto (by simp [hpc]) (barrierWaitPc_eq n val))
    ?_ ?_ ?_ ?_ hinv.waitKeys.removed
  · intro hset
    subst hval
    exact le_of_barrierWaitPc_one hset (fun j => (s.rank j).adds) i
  · rw [update_groupKey_of_role (by decide)]
  · intro hkey
    exact hinv.opened (ne_none_of_removed hkey).2
  · refine hinv.addKeys.moveOther le_rfl (by decide) fun k _ hremain => hremain.move ?_
    rintro - ⟨v, hv⟩
    exact absurd (hpc.symm.trans hv) (by simp)

theorem BarrierInv.set (hpc : (s.rank i).pc = .set) :
    BarrierInv version (s.move i { s.rank i with pc := .get } (s.store.set
      (groupKey version (s.rank i).barrierGroupSn .barrierWait) groupSetStr).1) top := by
  have hok := hinv.ranks i
  have hin : (s.rank i).adds = (s.rank i).returns + 1 := hok.inside (by simp [hpc])
  have hnot : ¬ (s.rank i).pc.RemovesWait := not_removesWait (.inr (.inl hpc))
  have htop := hok.le_top
  have hnear := hok.near
  rw [hok.sn_eq, set_fst]
  refine hinv.moveInside rfl (hinv.noEarly i) (hok.goto (by simp [hpc]) (.inr rfl)) (by simp)
    ?_ ?_ ?_ ?_
  · exact update_groupKey_of_role (by decide) _ _
  · intro hkey j
    rcases eq_or_ne (s.rank i).adds top with heq | hne
    · -- the rank that sets the key of the latest call has counted all of them in
      have hle := hinv.setting i hpc j
      have hj := (hinv.ranks j).le_top
      omega
    have hsn : groupSn top ≠ groupSn (s.rank i).adds := by
      simp only [groupSn]
      omega
    rw [update_of_ne (groupKey_ne_of_sn hsn _ _)] at hkey
    exact hinv.opened hkey j
  · refine hinv.addKeys.moveOther le_rfl (by decide) fun k _ hremain => ?_
    exact hremain.move fun _ h => absurd (.inl h) hnot
  · refine hinv.waitKeys.moveRecent le_rfl (by omega) htop hnear fun k _ hremain => ?_
    exact hremain.move fun _ h => absurd h hnot

theorem BarrierInv.le_adds_of_waitKey
    (hkey : s.store (groupKey version (s.rank i).barrierGroupSn .barrierWait) ≠ none)
    (j : Fin n) : (s.rank i).adds ≤ (s.rank j).adds := by
  have htop := (hinv.ranks i).le_top
  have hnear := (hinv.ranks j).near
  rcases eq_or_ne (s.rank i).adds top with heq | hne
  · rw [(hinv.ranks i).sn_eq, heq] at hkey
    have hj := hinv.opened hkey j
    omega
  · omega

theorem BarrierInv.get (hpc : (s.rank i).pc = .get)
    (hkey : s.store (groupKey version (s.rank i).barrierGroupSn .barrierWait) ≠ none) :
    BarrierInv version (s.move i
      { s.rank i with pc := .add, returns := (s.rank i).returns + 1 } s.store) top := by
  have hok := hinv.ranks i
  have hin : (s.rank i).adds = (s.rank i).returns + 1 := hok.inside (by simp [hpc])
  have hnot : ¬ (s.rank i).pc.RemovesWait := not_removesWait (.inr (.inr hpc))
  have hrank : BarrierRank.Ok top { s.rank i with pc := .add, returns := (s.rank i).returns + 1 } :=
    ⟨hok.sn_eq, fun _ => hin, fun h => absurd rfl h, hok.le_top, hok.near,
      fun h => absurd h (not_removesWait (.inl rfl)), by simp⟩
  refine hinv.moveInside rfl (fun j => hin.ge.trans (hinv.le_adds_of_waitKey hkey j)) hrank
    (by simp) rfl hinv.opened ?_ ?_
  · refine hinv.addKeys.move le_rfl (fun sn hkey => .inl hkey) fun k _ _ hremain => ?_
    exact hremain.move fun _ h => absurd (.inl h) hnot
  · refine hinv.waitKeys.move le_rfl (fun sn hkey => .inl hkey) fun k _ _ hremain => ?_
    exact hremain.move fun _ h => absurd h hnot

end

end Inside

/-! ### The step that begins a call -/

section Begin

variable {i : Fin n}

theorem barrierAddedPc_cases (size : ℕ) (val : ℤ) (sn : ℕ) :
    (val = 1 ∧ removeInterval < sn ∧ barrierAddedPc size val sn = .removeAdd val) ∨
      (¬ (val = 1 ∧ removeInterval < sn) ∧
        barrierAddedPc size val sn = barrierWaitPc size val) := by
  rw [barrierAddedPc]
  split
  case isTrue h => exact .inl ⟨h.1, h.2, rfl⟩
  case isFalse h => exact .inr ⟨h, rfl⟩

variable {r : BarrierRank} {val : ℤ} {store : SeqMap}

theorem barrierWaitPc_of_added {size : ℕ} (h : (r.added size val).pc = .set) :
    barrierWaitPc size val = .set := by
  rcases barrierAddedPc_cases size val (nextSn r.barrierGroupSn) with ⟨-, -, heq⟩ | ⟨-, heq⟩
  · cases heq.symm.trans h
  · exact heq.symm.trans h

theorem BarrierRank.Ok.added {top' : ℕ} (h : r.Ok top) (hpc : r.pc = .add) (hle : r.adds + 1 ≤ top')
    (hnear : top' ≤ r.adds + 2) (size : ℕ) (val : ℤ) : (r.added size val).Ok top' := by
  have hout := h.outside hpc
  have hsn : (r.added size val).barrierGroupSn = groupSn (r.adds + 1) := by
    rw [BarrierRank.added, h.sn_eq, nextSn_groupSn]
  rcases barrierAddedPc_cases size val (nextSn r.barrierGroupSn) with ⟨hval, hlt, heq⟩ | ⟨-, heq⟩
  · have hpc' : (r.added size val).pc = .removeAdd val := heq
    refine ⟨hsn, by simp [hpc'], fun _ => ?_, hle, hnear, fun _ => hlt, ?_⟩
    · exact congrArg (· + 1) hout
    intro val' h'
    rw [hpc'] at h'
    rcases h' with h' | h'
    · cases h'
      exact hval
    · cases h'
  have hpc' : (r.added size val).pc = .set ∨ (r.added size val).pc = .get := by
    show barrierAddedPc size val (nextSn r.barrierGroupSn) = _ ∨
      barrierAddedPc size val (nextSn r.barrierGroupSn) = _
    rw [heq]
    exact barrierWaitPc_eq size val
  refine ⟨hsn, fun hadd => ?_, fun _ => ?_, hle, hnear,
    fun hremove => absurd hremove (not_removesWait (.inr hpc')), fun val' h' => ?_⟩
  · rcases hpc' with hp | hp <;> cases hp.symm.trans hadd
  · exact congrArg (· + 1) hout
  · exact absurd (h'.imp (fun h => ⟨val', h⟩) fun h => ⟨val', h⟩) (not_removesWait (.inr hpc'))

theorem adds_le_move_added (j : Fin n) :
    (s.rank j).adds ≤ ((s.move i ((s.rank i).added n val) store).rank j).adds :=
  forall_move (p := fun j (r : BarrierRank) => (s.rank j).adds ≤ r.adds) (Nat.le_succ _)
    (fun _ _ => le_rfl) j

theorem BarrierInv.noEarly_added (hinv : BarrierInv version s top) :
    NoEarlyReturn (s.move i ((s.rank i).added n val) store) := by
  intro j l
  have hi : ((s.rank i).added n val).returns ≤ (s.rank l).adds := hinv.noEarly i l
  refine le_trans ?_ (adds_le_move_added l)
  exact forall_move (p := fun _ (r : BarrierRank) => r.returns ≤ (s.rank l).adds) hi
    (fun j _ => hinv.noEarly j l) j

theorem BarrierInv.setting_added (hinv : BarrierInv version s top)
    (hi : ((s.rank i).added n val).pc = .set →
      ∀ j, (s.rank i).adds + 1 ≤ ((s.move i ((s.rank i).added n val) store).rank j).adds)
    (j : Fin n) : ((s.move i ((s.rank i).added n val) store).rank j).pc = .set →
      ∀ l, ((s.move i ((s.rank i).added n val) store).rank j).adds ≤
        ((s.move i ((s.rank i).added n val) store).rank l).adds :=
  forall_move (p := fun _ (r : BarrierRank) => r.pc = .set → ∀ l, r.adds ≤
      ((s.move i ((s.rank i).added n val) store).rank l).adds) hi
    (fun j _ hset l => (hinv.setting j hset l).trans (adds_le_move_added l)) j

/-- The first rank to begin a call: the keys of the call before the previous one
are now for it to delete, if any call deletes them. -/
theorem MayRemain.addFirst {pending : BarrierPc → Prop} {k : ℕ} (hnot : ¬ pending (s.rank i).pc)
    (hremove : ∀ val, pending (.removeAdd val)) (htop : (s.rank i).adds = top)
    (hsn : (s.rank i).barrierGroupSn = groupSn top) (h : MayRemain s top pending k) (hk : k ≤ top) :
    MayRemain (s.move i ((s.rank i).added n 1) store) (top + 1) pending k := by
  rcases h with h | h | ⟨j, hadds, hpend⟩
  · rcases Nat.eq_or_lt_of_le hk with rfl | hlt
    · exact .inl le_rfl
    obtain rfl : top = k + 1 := by omega
    rcases barrierAddedPc_cases n 1 (nextSn (s.rank i).barrierGroupSn) with ⟨-, -, heq⟩ | ⟨hno, -⟩
    · refine .inr (.inr ⟨i, ?_⟩)
      rw [move_rank_self]
      refine ⟨congrArg (· + 1) htop, ?_⟩
      show pending (barrierAddedPc n 1 (nextSn (s.rank i).barrierGroupSn))
      rw [heq]
      exact hremove 1
    · refine .inr (.inl ?_)
      rw [hsn, nextSn_groupSn] at hno
      exact not_lt.mp fun hlt => hno ⟨rfl, hlt⟩
  · exact .inr (.inl h)
  have hne : j ≠ i := by
    rintro rfl
    exact hnot hpend
  refine .inr (.inr ⟨j, ?_⟩)
  rw [move_rank_of_ne hne]
  exact ⟨hadds, hpend⟩

theorem arrived_addFirst (store : SeqMap) (val : ℤ) (hall : ∀ j, (s.rank j).adds = top) :
    arrived (s.move i ((s.rank i).added n val) store) (top + 1) = {i} := by
  ext j
  rw [arrived, mem_filter, mem_singleton]
  rcases eq_or_ne j i with rfl | hne
  · rw [move_rank_self]
    exact ⟨fun _ => rfl, fun _ => ⟨mem_univ j, Nat.succ_le_succ (hall j).ge⟩⟩
  · rw [move_rank_of_ne hne, hall j]
    exact ⟨fun h => absurd h.2 (by omega), fun h => absurd h hne⟩

theorem BarrierInv.addFirst (hinv : BarrierInv version s top) (hpc : (s.rank i).pc = .add)
    (htop : (s.rank i).adds = top) (hlimit : top < barrierLimit) :
    BarrierInv version (s.move i ((s.rank i).added n 1) (update s.store
      (groupKey version (groupSn (top + 1)) .barrierAdd) (some (Decimal.ofInt 1)))) (top + 1) := by
  have hok := hinv.ranks i
  have hsn : (s.rank i).barrierGroupSn = groupSn top := htop ▸ hok.sn_eq
  have hnot : ¬ (s.rank i).pc.RemovesWait := not_removesWait (.inl hpc)
  -- the rank has returned from call `top`, so every rank is there
  have hall : ∀ j, (s.rank j).adds = top := by
    intro j
    have hle := (hinv.ranks j).le_top
    have hge := hinv.noEarly i j
    rw [← hok.outside hpc, htop] at hge
    omega
  refine
    { limit := hlimit
      ranks := ?_, begun := fun _ => ⟨i, ?_⟩, noEarly := hinv.noEarly_added
      setting := hinv.setting_added ?_, counter := fun _ => ?_, opened := fun hkey => ?_
      addKeys := ?_, waitKeys := ?_ }
  · refine forall_move (p := fun _ (r : BarrierRank) => r.Ok (top + 1))
      (hok.added hpc (by omega) (by omega) n 1) fun j _ => ?_
    have hj := hinv.ranks j
    exact { hj with
      sn_eq := hj.sn_eq, le_top := by have := hall j; omega, near := by have := hall j; omega }
  · rw [move_rank_self]
    exact congrArg (· + 1) htop
  · intro hset j
    refine le_trans (le_of_eq ?_) (le_of_barrierWaitPc_one (barrierWaitPc_of_added hset)
      (fun l => ((s.move i ((s.rank i).added n 1) _).rank l).adds) i j)
    rw [move_rank_self]
    rfl
  · rw [arrived_addFirst _ _ hall, move_store, update_self, card_singleton]
    rfl
  · rw [move_store, update_groupKey_of_role (by decide)] at hkey
    exact absurd (hinv.fresh hlimit hinv.waitKeys) hkey
  · refine hinv.addKeys.moveRecent (Nat.le_succ _) (Nat.succ_pos _) le_rfl (Nat.le_succ _)
      fun k hk hremain => ?_
    exact hremain.addFirst (fun h => hnot (.inl h)) (fun val => ⟨val, rfl⟩) htop hsn hk
  · refine hinv.waitKeys.moveOther (Nat.le_succ _) (by decide) fun k hk hremain => ?_
    exact hremain.addFirst hnot (fun val => .inl ⟨val, rfl⟩) htop hsn hk

theorem arrived_added (store : SeqMap) (val : ℤ) (htop : (s.rank i).adds + 1 = top) :
    i ∉ arrived s top ∧
      arrived (s.move i ((s.rank i).added n val) store) top = insert i (arrived s top) := by
  constructor
  · rw [arrived, mem_filter]
    exact fun h => absurd h.2 (by omega)
  ext j
  rw [mem_insert, arrived, arrived, mem_filter, mem_filter]
  rcases eq_or_ne j i with rfl | hne
  · rw [move_rank_self]
    exact ⟨fun _ => .inl rfl, fun _ => ⟨mem_univ j, htop.ge⟩⟩
  · rw [move_rank_of_ne hne]
    exact ⟨.inr, fun h => h.resolve_left hne⟩

theorem BarrierInv.addJoin (hinv : BarrierInv version s top) (hpc : (s.rank i).pc = .add)
    (htop : (s.rank i).adds + 1 = top) :
    BarrierInv version (s.move i ((s.rank i).added n ((arrived s top).card + 1))
      (update s.store (groupKey version (groupSn top) .barrierAdd)
        (some (Decimal.ofInt ((arrived s top).card + 1))))) top := by
  have hok := hinv.ranks i
  have hnot : ¬ (s.rank i).pc.RemovesWait := not_removesWait (.inl hpc)
  obtain ⟨hout, hin⟩ := arrived_added (update s.store (groupKey version (groupSn top) .barrierAdd)
    (some (Decimal.ofInt ((arrived s top).card + 1)))) ((arrived s top).card + 1) htop
  refine
    { limit := hinv.limit
      ranks := ?_, begun := fun _ => ⟨i, ?_⟩, noEarly := hinv.noEarly_added
      setting := hinv.setting_added ?_, counter := fun _ => ?_, opened := fun hkey => ?_
      addKeys := ?_, waitKeys := ?_ }
  · exact forall_move (p := fun _ (r : BarrierRank) => r.Ok top)
      (hok.added hpc (by omega) (by omega) n _) fun j _ => hinv.ranks j
  · rw [move_rank_self]
    exact htop
  · intro hset j
    have hn : ((arrived s top).card + 1 : ℤ) = n :=
      eq_of_barrierWaitPc (barrierWaitPc_of_added hset)
    -- all n ranks have been counted, so `j` is one of them
    have huniv : insert i (arrived s top) = univ := by
      refine eq_univ_of_card _ ?_
      rw [card_insert_of_notMem hout, Fintype.card_fin]
      omega
    have hj : j ∈ insert i (arrived s top) := huniv ▸ mem_univ j
    rw [← hin, arrived, mem_filter] at hj
    omega
  · rw [hin, card_insert_of_notMem hout, move_store, update_self]
    push_cast
    rfl
  · rw [move_store, update_groupKey_of_role (by decide)] at hkey
    have hi := hinv.opened hkey i
    omega
  · refine hinv.addKeys.moveRecent le_rfl (by omega) le_rfl (Nat.le_succ _) fun k _ hremain => ?_
    exact hremain.move fun _ h => absurd (.inl h) hnot
  · refine hinv.waitKeys.moveOther le_rfl (by decide) fun k _ hremain => ?_
    exact hremain.move fun _ h => absurd h hnot

end Begin

/-! ### Runs -/

theorem BarrierInv.start (version : ℤ) {store : SeqMap} (hstore : NoBarrierKeys version store) :
    BarrierInv version (barrierSystem n version store).start 0 where
  limit := Nat.zero_le _
  ranks _ := ⟨rfl, fun _ => rfl, fun h => absurd rfl h, le_rfl, Nat.zero_le _,
    fun h => absurd h (not_removesWait (.inl rfl)), by simp [barrierSystem]⟩
  begun h := absurd h (lt_irrefl 0)
  noEarly _ _ := le_rfl
  setting _ h := by cases h
  counter h := absurd h (lt_irrefl 0)
  opened _ _ := rfl
  addKeys sn h := absurd (hstore sn).1 h
  waitKeys sn h := absurd (hstore sn).2 h

/-- The invariant is kept by every step within the limit. -/
theorem barrierInv_next (hn : n < 2 ^ 32) (hinv : BarrierInv version s top) {i : Fin n}
    (hfew : FewCalls s i) {s' : BarrierState n} (h : barrierNext version s i = some s') :
    ∃ top', BarrierInv version s' top' := by
  have hok := hinv.ranks i
  cases hpc : (s.rank i).pc with
  | add =>
    simp only [barrierNext, hpc, hok.sn_eq, nextSn_groupSn] at h
    have hlimit := hfew hpc
    rcases eq_or_ne (s.rank i).adds top with htop | hne
    · rw [htop, add_of_none (hinv.fresh (htop ▸ hlimit) hinv.addKeys), some_inj] at h
      exact ⟨top + 1, h ▸ hinv.addFirst hpc htop (htop ▸ hlimit)⟩
    have htop : (s.rank i).adds + 1 = top := by
      have hle := hok.le_top
      have hnear := hok.near
      omega
    have hcard : (arrived s top).card ≤ n := (card_le_univ _).trans_eq (Fintype.card_fin n)
    have hint : Decimal.InInt64 (arrived s top).card := by
      constructor <;> omega
    rw [htop, add_of_ofInt (hinv.counter (by omega)) hint, some_inj] at h
    exact ⟨top, h ▸ hinv.addJoin hpc htop⟩
  | removeAdd val =>
    simp only [barrierNext, hpc, some_inj] at h
    exact ⟨top, h ▸ hinv.removeAdd hpc⟩
  | removeWait val =>
    simp only [barrierNext, hpc, some_inj] at h
    exact ⟨top, h ▸ hinv.removeWait hpc⟩
  | set =>
    simp only [barrierNext, hpc, some_inj] at h
    exact ⟨top, h ▸ hinv.set hpc⟩
  | get =>
    cases hkey : s.store (groupKey version (s.rank i).barrierGroupSn .barrierWait) with
    | none => simp [barrierNext, hpc, SeqMap.get, hkey] at h
    | some value =>
      simp only [barrierNext, hpc, get_of_some hkey, ite_none_right_eq_some, some_inj] at h
      exact ⟨top, h.2 ▸ hinv.get hpc (by simp [hkey])⟩

theorem barrierInv_of_reachable (hn : n < 2 ^ 32) (version : ℤ) {store : SeqMap}
    (hstore : NoBarrierKeys version store) {s : BarrierState n}
    (hs : (barrierSystem n version store).ReachableBy FewCalls s) :
    ∃ top, BarrierInv version s top :=
  hs.invariant (I := fun s => ∃ top, BarrierInv version s top) ⟨0, BarrierInv.start version hstore⟩
    fun ⟨_, hinv⟩ hfew hnext => barrierInv_next hn hinv hfew hnext

theorem BarrierInv.deletesNoPending (hinv : BarrierInv version s top) :
    DeletesNoPending version s := by
  intro i val hpc j k hread
  obtain ⟨hret, l, hl⟩ := hread
  have hok := hinv.ranks i
  have hsn : removeInterval < (s.rank i).barrierGroupSn := hok.removing (.inr ⟨val, hpc⟩)
  have hle := hok.le_top
  have hnear := hok.near
  have hltop := (hinv.ranks l).le_top
  have hjnear := (hinv.ranks j).near
  have hj : (s.rank j).adds ≤ (s.rank j).returns + 1 := by
    by_cases hadd : (s.rank j).pc = .add
    · exact ((hinv.ranks j).outside hadd).trans_le (Nat.le_succ _)
    · exact ((hinv.ranks j).inside hadd).le
  rw [hok.sn_eq] at hsn ⊢
  refine groupKey_ne_of_sn ?_ _ _
  simp only [groupSn, removeInterval] at *
  omega

/-- No rank returns before every rank has performed the `Add` of the same call, and no wait key that
is still to be read is deleted. -/
theorem barrierSafe_of_fewCalls (hn : n < 2 ^ 32) (version : ℤ) {store : SeqMap}
    (hstore : NoBarrierKeys version store) {s : BarrierState n}
    (hs : (barrierSystem n version store).ReachableBy FewCalls s) :
    NoEarlyReturn s ∧ DeletesNoPending version s := by
  obtain ⟨top, hinv⟩ := barrierInv_of_reachable hn version hstore hs
  exact ⟨hinv.noEarly, hinv.deletesNoPending⟩

/-- In call 3 of two ranks: rank 0 is about to delete the wait key of call 1, and
rank 1 has returned from call 2. -/
theorem barrierSafe_in_third_call :
    ∃ s : BarrierState 2, (s.rank 0).pc = .removeWait 1 ∧ (s.rank 1).returns = 2 ∧
      NoEarlyReturn s ∧ DeletesNoPending 0 s := by
  have hrun : (((barrierSystem 2 0 fun _ => none).restrict FewCalls).run
      (barrierSystem 2 0 fun _ => none).start [0, 1, 1, 1, 0, 1, 0, 0, 0, 1, 0, 0]).map
      (fun s => ((s.rank 0).pc, (s.rank 1).returns)) = some (.removeWait 1, 2) := by
    decide +kernel
  obtain ⟨s, hs, hval⟩ := TransitionSystem.exists_of_run_restrict hrun
  rw [Prod.mk.injEq] at hval
  exact ⟨s, hval.1, hval.2, barrierSafe_of_fewCalls (by decide) 0 (fun _ => ⟨rfl, rfl⟩) hs⟩

end GroupEngine
