/-
Reconnection.

A client that has come back over a new link calls `ReInitialize`: it registers its rank id
again, and writes and counts again every record it remembers.  `Intact` says that the server
holds what the client remembers; after a break the entry is gone, the records are ABNORMAL and
the counts are lower (`Restoring`), and each record written again takes this back for its slot.
-/
import MemFabric.TransCounts

namespace Trans

open List RankInfo Function FaultStore Option TransitionSystem SharedState

open ConfigStore

/-! ### What the server holds of a client -/

def slotsOf (k : RecordKind) (recs : List Stored) : List ℕ :=
  (recs.filter fun x => x.1 = k).map fun x => x.2.1

def RecordInfo.holding (k : RecordKind) (r : Role) (size : ℕ) (slots : List ℕ) : RecordInfo :=
  if slots = [] then (RankInfo.new 0 []).record k
  else ⟨size, slots, (TransKey.info k r).key, (TransKey.count k r).key⟩

/-- The entry of a link over which these records have been stored. -/
def RankInfo.holding (rankId : ℕ) (name : Bytes) (r : Role) (sizes : RecordSizes)
    (recs : List Stored) : RankInfo where
  rankId := rankId
  rankName := (TransKey.rank name).key
  dInfo := .holding .device r (sizes.size .device r) (slotsOf .device recs)
  sInfo := .holding .slice r (sizes.size .slice r) (slotsOf .slice recs)

def Found (sizes : RecordSizes) (r : Role) (b : Backend) (x : Stored) : Prop :=
  x.2.1 < 2 ^ 16 ∧ x.2.2.bytes.length = sizes.size x.1 r ∧
    Records.Holds ((b (TransKey.info x.1 r).key).getD []) (x.2.1 * sizes.size x.1 r) x.2.2.bytes

instance (sizes : RecordSizes) (r : Role) (b : Backend) (x : Stored) :
    Decidable (Found sizes r b x) :=
  inferInstanceAs (Decidable (_ ∧ _ ∧ _))

variable {n : ℕ}

/-- Client `i` is idle and initialized, and the server holds what it remembers: the entry of
its link `l` has its rank id and the slots of its records, its configuration and its records are
found in their slots, and its records have been counted. -/
structure Intact (G : TransGroup n) (sizes : RecordSizes) (i : Fin n) (l : ℕ) (s : TransState n) :
    Prop where
  link : (s.rank i).link = some l
  idle : (s.rank i).pc = .idle
  initialized : (s.rank i).initialized = true
  entry : s.store.handler.linkIdToRankInfoMap l =
    some (.holding (s.rank i).rankId (G.name i) (G.role i) sizes (s.rank i).stored)
  rankId_lt : (s.rank i).rankId < 2 ^ 16
  rankKey : s.store.backend (TransKey.rank (G.name i)).key = some (Bytes.le 2 (s.rank i).rankId)
  rankInfo : (s.rank i).storeRankIdInfo = ((s.rank i).rankId, G.cfg i)
  ranks : Records.Holds ((s.store.backend TransKey.ranksInfo.key).getD [])
    ((s.rank i).rankId * (G.cfg i).length) (G.cfg i)
  records : ∀ x ∈ (s.rank i).stored, Found sizes (G.role i) s.store.backend x
  counts : ∀ k, slotsOf k (s.rank i).stored ≠ [] →
    s.store.backend (TransKey.count k (G.role i)).key =
        some (Decimal.ofInt ((s.store.count k (G.role i)).getD 0)) ∧
      ((slotsOf k (s.rank i).stored).length : ℤ) ≤ (s.store.count k (G.role i)).getD 0 ∧
      (s.store.count k (G.role i)).getD 0 < 2 ^ 63

instance (G : TransGroup n) (sizes : RecordSizes) (i : Fin n) (l : ℕ) (s : TransState n) :
    Decidable (Intact G sizes i l s) :=
  decidable_of_iff (((s.rank i).link = some l ∧ (s.rank i).pc = .idle ∧
      (s.rank i).initialized = true) ∧
    (s.store.handler.linkIdToRankInfoMap l =
      some (.holding (s.rank i).rankId (G.name i) (G.role i) sizes (s.rank i).stored)) ∧
    ((s.rank i).rankId < 2 ^ 16 ∧
      s.store.backend (TransKey.rank (G.name i)).key = some (Bytes.le 2 (s.rank i).rankId) ∧
      (s.rank i).storeRankIdInfo = ((s.rank i).rankId, G.cfg i) ∧
      Records.Holds ((s.store.backend TransKey.ranksInfo.key).getD [])
        ((s.rank i).rankId * (G.cfg i).length) (G.cfg i)) ∧
    (∀ x ∈ (s.rank i).stored, Found sizes (G.role i) s.store.backend x) ∧
    ∀ k, slotsOf k (s.rank i).stored ≠ [] → s.store.backend (TransKey.count k (G.role i)).key =
          some (Decimal.ofInt ((s.store.count k (G.role i)).getD 0)) ∧
        ((slotsOf k (s.rank i).stored).length : ℤ) ≤ (s.store.count k (G.role i)).getD 0 ∧
        (s.store.count k (G.role i)).getD 0 < 2 ^ 63)
    ⟨fun ⟨⟨hl, hpc, hinit⟩, hentry, ⟨hid, hkey, hinfo, hranks⟩, hrecords, hcounts⟩ =>
        ⟨hl, hpc, hinit, hentry, hid, hkey, hinfo, hranks, hrecords, hcounts⟩,
      fun h => ⟨⟨h.link, h.idle, h.initialized⟩, h.entry,
        ⟨h.rankId_lt, h.rankKey, h.rankInfo, h.ranks⟩, h.records, h.counts⟩⟩

/-- Client `i` alone makes some steps. -/
def StepsTo (G : TransGroup n) (i : Fin n) (s u : TransState n) : Prop :=
  ∃ m, (transSystem G).run s (List.replicate m (.step i)) = some u

/-- The steps of client `i` take it through its call: it returns SM_OK, the backend is the same
as in `s`, and the entry of link `l'` is what that of link `l` was. -/
def Restores (G : TransGroup n) (i : Fin n) (s : TransState n) (l : ℕ) (t : TransState n)
    (l' : ℕ) : Prop :=
  ∃ u, StepsTo G i t u ∧ (u.rank i).pc = .idle ∧ (u.rank i).result = true ∧
    (u.rank i).rankId = (s.rank i).rankId ∧ u.store.backend = s.store.backend ∧
    u.store.handler.linkIdToRankInfoMap l' = s.store.handler.linkIdToRankInfoMap l

section Holding

variable {k : RecordKind} {r : Role} {size : ℕ} {sizes : RecordSizes} {recs : List Stored}
  {slots : List ℕ} {rankId : ℕ} {name : Bytes}

theorem slotsOf_cons (x : Stored) (recs : List Stored) :
    slotsOf k (x :: recs) = if x.1 = k then x.2.1 :: slotsOf k recs else slotsOf k recs := by
  by_cases hx : x.1 = k <;> simp [slotsOf, hx]

theorem slotsOf_append (recs recs' : List Stored) :
    slotsOf k (recs ++ recs') = slotsOf k recs ++ slotsOf k recs' := by
  simp [slotsOf]

theorem mem_slotsOf {slot : ℕ} (h : slot ∈ slotsOf k recs) : ∃ rec, (k, slot, rec) ∈ recs := by
  obtain ⟨⟨k', slot', rec⟩, hx, rfl⟩ := mem_map.mp h
  obtain ⟨hmem, hk⟩ := mem_filter.mp hx
  obtain rfl : k' = k := of_decide_eq_true hk
  exact ⟨rec, hmem⟩

theorem length_slotsOf_device (c : TransClient) : (slotsOf .device c.stored).length ≤ 1 := by
  have hslices : slotsOf .device (c.storeSliceInfo.map fun p => (.slice, p.1, p.2)) = [] := by
    simp [slotsOf, List.filter_map]
  rw [TransClient.stored, slotsOf_append, hslices, append_nil]
  cases c.storeDeviceInfo <;> simp [slotsOf]

theorem RankInfo.record_holding :
    (RankInfo.holding rankId name r sizes recs).record k =
      .holding k r (sizes.size k r) (slotsOf k recs) := by
  cases k <;> rfl

theorem RecordInfo.holding_put (hk : k = .device → slots = []) (hsize : size < 2 ^ 16) (slot : ℕ) :
    { (RecordInfo.holding k r size slots).put k slot size (TransKey.info k r).key with
      countKey := (TransKey.count k r).key } = RecordInfo.holding k r size (slots ++ [slot]) := by
  by_cases hslots : slots = []
  · subst hslots
    cases k <;> simpa [RecordInfo.holding, RecordInfo.put, RankInfo.new, RankInfo.record] using hsize
  cases k with
  | device => exact absurd (hk rfl) hslots
  | slice => simpa [RecordInfo.holding, RecordInfo.put, hslots] using hsize

theorem RankInfo.ext_record {a b : RankInfo} (hid : a.rankId = b.rankId)
    (hname : a.rankName = b.rankName) (hrecord : ∀ k, a.record k = b.record k) : a = b := by
  cases a
  cases b
  exact RankInfo.mk.injEq .. ▸ ⟨hid, hname, hrecord .device, hrecord .slice⟩

theorem RankInfo.holding_put (hk : k = .device → slotsOf .device recs = []) (slot : ℕ)
    (rec : Record) :
    ((RankInfo.holding rankId name r sizes recs).modify k fun i =>
        i.put k slot (sizes.size k r) (TransKey.info k r).key).modify k
          (fun i => { i with countKey := (TransKey.count k r).key }) =
      RankInfo.holding rankId name r sizes (recs ++ [(k, slot, rec)]) := by
  refine ext_record (by simp [RankInfo.holding]) (by simp [RankInfo.holding]) fun k' => ?_
  have hslots : slotsOf k' (recs ++ [(k, slot, rec)]) =
      slotsOf k' recs ++ if k = k' then [slot] else [] := by
    rw [slotsOf_append, slotsOf_cons]
    rfl
  rw [record_holding, hslots]
  by_cases hkk : k' = k
  · subst hkk
    rw [record_modify_self, record_modify_self, record_holding, if_pos rfl]
    exact RecordInfo.holding_put (fun h => h ▸ hk h) (sizes.size_lt k' r) slot
  · rw [record_modify_of_ne hkk, record_modify_of_ne hkk,
      record_holding, if_neg (Ne.symm hkk), append_nil]

theorem RankInfo.owned_holding (r' : Role) :
    (RankInfo.holding rankId name r sizes recs).owned (.record k r') =
      if r' = r then slotsOf k recs else [] := by
  rw [RankInfo.owned, record_holding, RecordInfo.holding]
  by_cases hslots : slotsOf k recs = []
  · rw [if_pos hslots, new_infoKey, if_neg (TransKey.key_ne_nil _).symm, hslots, ite_self]
  rw [if_neg hslots]
  by_cases hr : r' = r
  · rw [hr, if_pos rfl, if_pos rfl]
  · rw [if_neg (by simpa using fun h => hr h.symm), if_neg hr]

end Holding

/-! ### Writing the records again -/

section Accepted

variable {store : FaultStore} {linkId : ℕ} {name : Bytes} {r : Role} {k : RecordKind}
  {info : RankInfo}

theorem FaultStore.perform_writeRecord {slot : ℕ} {rec : Record} {old : Bytes}
    (hinfo : store.handler.linkIdToRankInfoMap linkId = some info)
    (hold : store.backend (TransKey.info k r).key = some old) (hsize : rec.bytes.length < 2 ^ 16)
    (hslot : slot < 2 ^ 16) :
    store.perform linkId name r (.writeRecord k slot rec) =
      some (⟨update store.backend (TransKey.info k r).key
        (some (overlay old (slot * rec.bytes.length) rec.bytes)),
        store.handler.setLink linkId (some (info.modify k fun i =>
          i.put k slot rec.bytes.length (TransKey.info k r).key))⟩, .done true) := by
  simp only [FaultStore.perform, write_info hold rec.bytes_ne_nil hsize hslot, hinfo,
    map_some, Prod.map_apply, id]

theorem FaultStore.perform_addCount {text : Bytes}
    (hinfo : store.handler.linkIdToRankInfoMap linkId = some info)
    (hsum : FaultStore.sumText (store.backend (TransKey.count k r).key) = some (some text)) :
    store.perform linkId name r (.addCount k) =
      some (⟨update store.backend (TransKey.count k r).key (some text),
        store.handler.setLink linkId (some (info.modify k fun i =>
          { i with countKey := (TransKey.count k r).key }))⟩, .done true) := by
  simp only [FaultStore.perform, addOne_count, hinfo, hsum, map_some, Prod.map_apply, id]

end Accepted

/-- A count that is lower by `m` than it should be. -/
def Lowered (m : ℕ) (text text' : Option Bytes) : Prop :=
  (m = 0 ∧ text' = text) ∨ ∃ c : ℤ, text = some (Decimal.ofInt c) ∧
    text' = some (Decimal.ofInt (c - m)) ∧ 0 ≤ c - m ∧ c < 2 ^ 63

variable {text text' value value' : Option Bytes}

theorem Lowered.eq (h : Lowered 0 text text') : text' = text := by
  rcases h with ⟨-, h⟩ | ⟨c, htext, htext', -⟩
  · exact h
  · rw [htext', htext, Nat.cast_zero, sub_zero]

theorem Lowered.add {m : ℕ} (h : Lowered (m + 1) text text') :
    ∃ new, FaultStore.sumText text' = some (some new) ∧ Lowered m text (some new) := by
  rcases h with ⟨hm, -⟩ | ⟨c, htext, htext', hlo, hhi⟩
  · cases hm
  have hsum : c - (m + 1 : ℕ) + 1 = c - m := by
    push_cast
    ring
  have hc : Decimal.InInt64 (c - (m + 1 : ℕ)) := ⟨by omega, by omega⟩
  have hc' : Decimal.InInt64 (c - (m + 1 : ℕ) + 1) := ⟨by omega, by omega⟩
  refine ⟨_, sumText_of (.inr htext') hc hc', .inr ⟨c, htext, ?_, by omega, hhi⟩⟩
  rw [hsum]

/-- A list of records that is as it should be but for some slots. -/
def Marked (size : ℕ) (slots : List ℕ) (value value' : Option Bytes) : Prop :=
  (value = none ∧ value' = none) ∨
    ∃ v w, value = some v ∧ value' = some w ∧ Records.SameOff size slots v w

theorem Marked.eq {size : ℕ} (h : Marked size [] value value') : value' = value := by
  rcases h with ⟨hv, hw⟩ | ⟨v, w, hv, hw, hsame⟩
  · rw [hv, hw]
  · rw [hv, hw, hsame.eq]

theorem Marked.write {size slot : ℕ} {slots : List ℕ} {data : Bytes}
    (h : Marked size (slot :: slots) value value') (hne : data ≠ []) (hlen : data.length = size)
    (hholds : Records.Holds (value.getD []) (slot * size) data) :
    ∃ w, value' = some w ∧
      Marked size slots value (some (overlay w (slot * data.length) data)) := by
  rcases h with ⟨hv, -⟩ | ⟨v, w, hv, hw, hsame⟩
  · rw [hv, getD_none] at hholds
    have hle := hholds.le hne
    have hpos := length_pos_iff.mpr hne
    rw [length_nil] at hle
    omega
  rw [hv, getD_some] at hholds
  have hle : slot * data.length + data.length ≤ w.length := by
    rw [hsame.length]
    exact hlen ▸ hholds.le hne
  refine ⟨w, hw, .inr ⟨v, _, hv, rfl, ?_⟩⟩
  rw [overlay_eq_patch hle, hlen]
  exact hsame.patch hlen hne hholds

/-- The client has registered its rank id over link `l` again and written `done`; when it has
written `todo` as well, the backend will be `b`. -/
structure Restoring (G : TransGroup n) (sizes : RecordSizes) (i : Fin n) (l rankId : ℕ)
    (b : Backend) (done todo : List Stored) (store : FaultStore) : Prop where
  entry : store.handler.linkIdToRankInfoMap l =
    some (.holding rankId (G.name i) (G.role i) sizes done)
  others : ∀ {key}, (∀ k, key ≠ (TransKey.info k (G.role i)).key) →
    (∀ k, key ≠ (TransKey.count k (G.role i)).key) → store.backend key = b key
  infos : ∀ k, Marked (sizes.size k (G.role i)) (slotsOf k todo)
    (b (TransKey.info k (G.role i)).key) (store.backend (TransKey.info k (G.role i)).key)
  counts : ∀ k, Lowered (slotsOf k todo).length (b (TransKey.count k (G.role i)).key)
    (store.backend (TransKey.count k (G.role i)).key)

section Restore

variable {G : TransGroup n} {sizes : RecordSizes} {i : Fin n} {l rankId : ℕ} {b : Backend}
  {done todo : List Stored} {store : FaultStore} {s u : TransState n}

theorem Restoring.backend_eq (h : Restoring G sizes i l rankId b done [] store) :
    store.backend = b := by
  funext key
  by_cases hinfo : ∃ k, key = (TransKey.info k (G.role i)).key
  · obtain ⟨k, rfl⟩ := hinfo
    exact (h.infos k).eq
  by_cases hcount : ∃ k, key = (TransKey.count k (G.role i)).key
  · obtain ⟨k, rfl⟩ := hcount
    exact (h.counts k).eq
  · exact h.others (not_exists.mp hinfo) (not_exists.mp hcount)

theorem Restoring.step {k : RecordKind} {slot : ℕ} {rec : Record}
    (h : Restoring G sizes i l rankId b done ((k, slot, rec) :: todo) store)
    (hfound : Found sizes (G.role i) b (k, slot, rec))
    (hdev : k = .device → slotsOf .device done = []) :
    ∃ store₁ store₂, store.perform l (G.name i) (G.role i) (.writeRecord k slot rec) =
        some (store₁, .done true) ∧
      store₁.perform l (G.name i) (G.role i) (.addCount k) = some (store₂, .done true) ∧
      Restoring G sizes i l rankId b (done ++ [(k, slot, rec)]) todo store₂ := by
  obtain ⟨hslot, hlen, hholds⟩ := hfound
  have hinfos : ∀ k', k' ≠ k → slotsOf k' ((k, slot, rec) :: todo) = slotsOf k' todo := fun k' hk =>
    (slotsOf_cons ..).trans (if_neg (Ne.symm hk))
  have hself : slotsOf k ((k, slot, rec) :: todo) = slot :: slotsOf k todo :=
    (slotsOf_cons ..).trans (if_pos rfl)
  obtain ⟨w, hw, hmarked⟩ := (hself ▸ h.infos k).write rec.bytes_ne_nil hlen hholds
  obtain ⟨text, hsum, hlowered⟩ := Lowered.add (hself ▸ h.counts k)
  have hbytes : rec.bytes.length < 2 ^ 16 := hlen ▸ sizes.size_lt k (G.role i)
  obtain ⟨store₁, hwrite, hentry, hback⟩ : ∃ store₁,
      store.perform l (G.name i) (G.role i) (.writeRecord k slot rec) = some (store₁, .done true) ∧
      store₁.handler.linkIdToRankInfoMap l =
        some ((RankInfo.holding rankId (G.name i) (G.role i) sizes done).modify k fun i' =>
          i'.put k slot rec.bytes.length (TransKey.info k (G.role i)).key) ∧
      store₁.backend = update store.backend (TransKey.info k (G.role i)).key
        (some (overlay w (slot * rec.bytes.length) rec.bytes)) :=
    ⟨_, perform_writeRecord h.entry hw hbytes hslot, FaultHandler.setLink_self _, rfl⟩
  have hsum₁ : FaultStore.sumText (store₁.backend (TransKey.count k (G.role i)).key) =
      some (some text) := by
    rw [hback, update_of_ne (by simp), hsum]
  refine ⟨store₁, _, hwrite, perform_addCount hentry hsum₁, ?_⟩
  rw [hback]
  refine ⟨?_, fun hinfo hcount => ?_, fun k' => ?_, fun k' => ?_⟩
  · rw [FaultHandler.setLink_self, hlen, holding_put hdev]
  · dsimp only
    rw [update_of_ne (hcount k), update_of_ne (hinfo k), h.others hinfo hcount]
  · dsimp only
    rw [update_of_ne (by simp)]
    by_cases hk : k' = k
    · subst hk
      rwa [update_self]
    · rw [update_of_ne (by simp [hk]), ← hinfos k' hk]
      exact h.infos k'
  dsimp only
  by_cases hk : k' = k
  · subst hk
    rwa [update_self]
  · rw [update_of_ne (by simp [hk]), update_of_ne (by simp), ← hinfos k' hk]
    exact h.counts k'

theorem StepsTo.refl (G : TransGroup n) (i : Fin n) (s : TransState n) : StepsTo G i s s :=
  ⟨0, rfl⟩

variable {t : TransState n} {c : TransClient}

theorem StepsTo.head (hnext : transNext G s (.step i) = some t) (h : StepsTo G i t u) :
    StepsTo G i s u := by
  obtain ⟨m, hm⟩ := h
  refine ⟨m + 1, ?_⟩
  exact (run_cons hnext _).trans hm

theorem StepsTo.trans (h : StepsTo G i s t) (h' : StepsTo G i t u) : StepsTo G i s u := by
  obtain ⟨m, hm⟩ := h
  induction m generalizing s with
  | zero =>
    obtain rfl : s = t := some.inj hm
    exact h'
  | succ m ih =>
    obtain ⟨s', hnext, hm⟩ := bind_eq_some_iff.mp hm
    exact .head hnext (ih hm)

theorem StepsTo.request {q : Request} {p : FaultStore × Outcome} (hc : s.rank i = c)
    (hl : c.link = some l) (hup : c.up = true) (hq : c.request G i = some q)
    (hp : s.store.perform l (G.name i) (G.role i) q = some p)
    (h : StepsTo G i (s.move i (c.receive G i p.2) p.1) u) : StepsTo G i s u := by
  subst hc
  exact .head (transNext_step_of hl hup hq hp) h

theorem TransClient.goto_resume (c : TransClient) (pc : ClientPc) (todo : List Stored) :
    (c.goto pc).resume todo = c.resume todo := by
  cases todo <;> rfl

/-- `ReStoreDeviceInfo` and `ReStoreSliceInfo`: the induction is on what is left to write. -/
theorem Restoring.steps (hl : c.link = some l) (hup : c.up = true) (hc : s.rank i = c.resume todo)
    (h : Restoring G sizes i l rankId b done todo s.store)
    (hfound : ∀ x ∈ todo, Found sizes (G.role i) b x)
    (hdev : (slotsOf .device (done ++ todo)).length ≤ 1) :
    ∃ u, StepsTo G i s u ∧ u.rank i = c.resume [] ∧
      Restoring G sizes i l rankId b (done ++ todo) [] u.store := by
  induction todo generalizing s done with
  | nil => exact ⟨s, .refl G i s, hc, by rwa [append_nil]⟩
  | cons x todo ih =>
    obtain ⟨k, slot, rec⟩ := x
    have hfirst : k = .device → slotsOf .device done = [] := by
      rintro rfl
      rw [slotsOf_append, slotsOf_cons, if_pos rfl, length_append, length_cons] at hdev
      exact eq_nil_of_length_eq_zero (by omega)
    obtain ⟨store₁, store₂, hwrite, hadd, hrest⟩ :=
      h.step (hfound _ mem_cons_self) hfirst
    have hassoc : done ++ (k, slot, rec) :: todo = (done ++ [(k, slot, rec)]) ++ todo := by simp
    rw [hassoc] at hdev ⊢
    obtain ⟨u, hsteps, hu, hdone⟩ := ih (s := s.move i (c.resume todo) store₂)
      move_rank_self hrest (fun x hx => hfound x (mem_cons_of_mem _ hx)) hdev
    refine ⟨u, ?_, hu, hdone⟩
    -- The record is written and counted, and the client goes on with the next one.
    refine .request hc (by simpa using hl) (by simpa using hup) rfl hwrite ?_
    refine .request move_rank_self (by exact hl) (by exact hup) rfl hadd ?_
    rw [move_move]
    have hnext : (((c.resume ((k, slot, rec) :: todo)).receive G i (.done true)).receive G i
        (.done true)) = c.resume todo :=
      (TransClient.goto_resume ..).trans (TransClient.goto_resume ..)
    rwa [hnext]

theorem reRegister_steps (hc : s.rank i = c) (hpc : c.pc = .reGet) (hl : c.link = some l)
    (hup : c.up = true) (hinfo : c.storeRankIdInfo = (c.rankId, G.cfg i)) (hid : c.rankId < 2 ^ 16)
    (hkey : s.store.backend (TransKey.rank (G.name i)).key = none)
    (hqueue : s.store.handler.faultRankIdQueue = [])
    (hranks : Records.Holds ((s.store.backend TransKey.ranksInfo.key).getD [])
      (c.rankId * (G.cfg i).length) (G.cfg i)) :
    ∃ u, StepsTo G i s u ∧ u.rank i = c.reRegistered ∧
      u.store = ⟨update s.store.backend (TransKey.rank (G.name i)).key (some (Bytes.le 2 c.rankId)),
        s.store.handler.setLink l (some (.new c.rankId (TransKey.rank (G.name i)).key))⟩ := by
  have hget : s.store.perform l (G.name i) (G.role i) .getRank = some (s.store, .got .notExist) := by
    rw [FaultStore.perform, get_rank_none (G.name_plain i) hkey, hqueue]
    rfl
  have hwrite : s.store.perform l (G.name i) (G.role i) (.writeRanks c.rankId (G.cfg i)) =
      some (s.store, .done true) := by
    cases hold : s.store.backend TransKey.ranksInfo.key with
    | none =>
      rw [hold, getD_none] at hranks
      have hle := hranks.le (G.cfg_ne_nil i)
      rw [G.cfg_length, length_nil] at hle
      omega
    | some v =>
      rw [hold, getD_some] at hranks
      have hsize : (G.cfg i).length < 2 ^ 16 := by
        rw [G.cfg_length]
        norm_num
      -- The configuration is there already.
      have hsame := update_eq_self TransKey.ranksInfo.key s.store.backend
      rw [hold] at hsame
      rw [FaultStore.perform, write_ranksInfo hold (G.cfg_ne_nil i) hsize hid,
        overlay_eq_patch (hranks.le (G.cfg_ne_nil i)), hranks.patch_eq (G.cfg_ne_nil i), hsame]
      rfl
  have hset : s.store.perform l (G.name i) (G.role i) (.setRank c.rankId) =
      some (⟨update s.store.backend (TransKey.rank (G.name i)).key (some (Bytes.le 2 c.rankId)),
        s.store.handler.setLink l (some (.new c.rankId (TransKey.rank (G.name i)).key))⟩,
        .done true) := by
    rw [FaultStore.perform, set_rank, Nat.mod_eq_of_lt hid]
    rfl
  have hreq : c.request G i = some .getRank := by rw [TransClient.request, hpc]
  have hnext : c.receive G i (.got .notExist) = c.goto .reWrite := by
    rw [TransClient.receive, hpc]
  have hreq₂ : (c.goto .reWrite).request G i = some (.writeRanks c.rankId (G.cfg i)) := by
    show some (Request.writeRanks c.storeRankIdInfo.1 c.storeRankIdInfo.2) = _
    rw [hinfo]
  have hlast : (((c.goto .reWrite).receive G i (.done true)).receive G i (.done true)) =
      c.reRegistered := by
    show TransClient.resume _ c.stored = TransClient.resume _ c.stored
    cases c.stored <;> rfl
  refine ⟨s.move i c.reRegistered _, ?_, move_rank_self, rfl⟩
  refine .request hc hl hup hreq hget ?_
  rw [hnext]
  refine .request move_rank_self hl hup hreq₂ hwrite ?_
  refine .request move_rank_self hl hup rfl hset ?_
  rw [move_move, move_move, hlast]
  exact .refl ..

end Restore

/-! ### The break -/

section Break

variable {G : TransGroup n} {sizes : RecordSizes} {i : Fin n} {l : ℕ} {s t u : TransState n}

theorem sameOff_markAbnormal {size : ℕ} (hpos : 0 < size) (hsize : size < 2 ^ 16)
    {slots ids : List ℕ} (hids : ∀ x ∈ ids, x ∈ slots ∧ x < 2 ^ 16) {v w : Bytes}
    (h : Records.SameOff size slots v w) :
    Records.SameOff size slots v (FaultHandler.markAbnormal size ids w) := by
  induction ids generalizing w with
  | nil => exact h
  | cons id ids ih =>
    obtain ⟨hmem, hid⟩ := hids id mem_cons_self
    rw [markAbnormal_cons hsize hid]
    exact ih (fun x hx => hids x (mem_cons_of_mem _ hx)) (h.set hpos hmem _)

/-- What the break of its link does to a client's data, seen from the data: when the rank key is
set again, all records are left to be restored. -/
theorem Intact.restoring (h : Intact G sizes i l s) (hshape : Shape G s) {l' : ℕ}
    (handler : FaultHandler) (hentry : handler.linkIdToRankInfoMap l' =
      some (.new (s.rank i).rankId (TransKey.rank (G.name i)).key)) :
    Restoring G sizes i l' (s.rank i).rankId s.store.backend [] (s.rank i).stored
      ⟨update (s.store.clear l).backend (TransKey.rank (G.name i)).key
        (some (Bytes.le 2 (s.rank i).rankId)), handler⟩ := by
  have hof := hshape.own h.link h.entry
  constructor
  case entry => exact hentry
  case others =>
    intro key hinfo hcount
    dsimp only
    by_cases hkey : key = (TransKey.rank (G.name i)).key
    · rw [hkey, update_self, h.rankKey]
    · rw [update_of_ne hkey]
      exact clear_backend_other h.entry hof hshape.nil hkey hinfo hcount
  case infos =>
    intro k
    dsimp only
    rw [update_of_ne (by simp), clear_backend_info h.entry hof hshape.nil,
      record_holding, owned_holding, if_pos rfl]
    cases hvalue : s.store.backend (TransKey.info k (G.role i)).key with
    | none => exact .inl ⟨rfl, rfl⟩
    | some v =>
      refine .inr ⟨v, _, rfl, rfl, ?_⟩
      by_cases hslots : slotsOf k (s.rank i).stored = []
      · rw [hslots]
        exact .refl ..
      have hids : ∀ x ∈ slotsOf k (s.rank i).stored,
          x ∈ slotsOf k (s.rank i).stored ∧ x < 2 ^ 16 := by
        intro x hx
        obtain ⟨rec, hrec⟩ := mem_slotsOf hx
        exact ⟨hx, (h.records _ hrec).1⟩
      have hpos : 0 < sizes.size k (G.role i) := by
        obtain ⟨x, hx⟩ := exists_mem_of_ne_nil _ hslots
        obtain ⟨rec, hrec⟩ := mem_slotsOf hx
        rw [← (h.records _ hrec).2.1]
        exact length_pos_iff.mpr rec.bytes_ne_nil
      rw [RecordInfo.holding, if_neg hslots]
      exact sameOff_markAbnormal hpos (sizes.size_lt k _) hids (.refl ..)
  case counts =>
    intro k
    dsimp only
    rw [update_of_ne (by simp), clear_backend_count h.entry hof hshape.nil, record_holding]
    by_cases hslots : slotsOf k (s.rank i).stored = []
    · -- Nothing is taken from the count.
      have hkey : (RecordInfo.holding k (G.role i) (sizes.size k (G.role i))
          (slotsOf k (s.rank i).stored)).countKey ≠ (TransKey.count k (G.role i)).key := by
        rw [RecordInfo.holding, if_pos hslots]
        cases k <;> exact (TransKey.key_ne_nil _).symm
      rw [if_neg hkey, hslots, Option.map_id]
      exact .inl ⟨rfl, rfl⟩
    obtain ⟨htext, hle, hlt⟩ := h.counts k hslots
    have hlost : (RecordInfo.holding k (G.role i) (sizes.size k (G.role i))
        (slotsOf k (s.rank i).stored)).lost k = (slotsOf k (s.rank i).stored).length := by
      rw [RecordInfo.holding, if_neg hslots]
      cases k with
      | device =>
        have hone := length_slotsOf_device (s.rank i)
        have hpos := length_pos_iff.mpr hslots
        show 1 = _
        omega
      | slice => rfl
    have hkey : (RecordInfo.holding k (G.role i) (sizes.size k (G.role i))
        (slotsOf k (s.rank i).stored)).countKey = (TransKey.count k (G.role i)).key := by
      rw [RecordInfo.holding, if_neg hslots]
    refine .inr ⟨_, htext, ?_, by omega, hlt⟩
    rw [if_pos hkey, htext, map_some, lowered, Decimal.string2Int_ofInt ⟨by omega, hlt⟩, hlost]
    dsimp only
    rw [Decimal.wrap64_of_inInt64 ⟨by omega, by omega⟩]

def TransClient.broken (c : TransClient) : TransClient :=
  { c with up := false, result := false, link := none, pc := .idle }

theorem Intact.broken (h : Intact G sizes i l s)
    (hbreak : (transSystem G).run s [.drop i, .clear i] = some t) :
    t = s.move i (s.rank i).broken (s.store.clear l) := by
  obtain ⟨s₁, hdrop, hrest⟩ := bind_eq_some_iff.mp hbreak
  obtain ⟨s₂, hclear, hlast⟩ := bind_eq_some_iff.mp hrest
  obtain rfl : s₂ = t := some.inj hlast
  obtain ⟨-, rfl⟩ := transNext_drop (G := G) hdrop
  obtain ⟨l', hl', -, rfl⟩ := transNext_clear (G := G) hclear
  have hdropped : (s.rank i).dropped = { s.rank i with up := false, result := false } := by
    simp only [TransClient.dropped, h.idle]
  rw [move_rank_self] at hl' ⊢
  obtain rfl : l = l' := by
    rw [hdropped] at hl'
    exact some.inj (h.link.symm.trans hl')
  rw [move_move, move_store, hdropped]
  rfl

theorem Intact.cleared (h : Intact G sizes i l s) (hshape : Shape G s) :
    (s.store.clear l).backend (TransKey.rank (G.name i)).key = none ∧
      (s.store.clear l).backend TransKey.ranksInfo.key =
        s.store.backend TransKey.ranksInfo.key := by
  have hof := hshape.own h.link h.entry
  refine ⟨clear_backend_rankName h.entry hof hshape.nil, ?_⟩
  exact clear_backend_other h.entry hof hshape.nil (by simp [RankInfo.holding]) (by simp) (by simp)

theorem Intact.rankId_queued (h : Intact G sizes i l s) (hshape : Shape G s) :
    (s.store.clear l).handler.faultRankIdQueue =
      s.store.handler.faultRankIdQueue ++ [(s.rank i).rankId] := by
  have hqueue := hshape.clear_queue l .rank
  rwa [FaultHandler.owned_of_some h.entry] at hqueue

end Break

/-! ### In the meantime -/

section Meantime

variable {G : TransGroup n} {i : Fin n} {s t : TransState n}

/-- Another client neither registers nor loses a registration: links without an entry come and
go, and slots are taken from the queues. -/
def harmless (G : TransGroup n) (i : Fin n) (s : TransState n) : TransEvent n → Bool
  | .connect j _ => j ≠ i
  | .drop j => j ≠ i
  | .clear j =>
    j ≠ i ∧ ∀ l ∈ (s.rank j).link, (s.store.handler.linkIdToRankInfoMap l).isNone
  | .expire l => (s.store.handler.linkIdToRankInfoMap l).isNone
  | .generate j => j ≠ i
  | .store j _ _ => j ≠ i
  | .step j =>
    decide (j ≠ i) &&
      match (s.rank j).request G j with
      | some .getRank => true
      | some (.getSlot _) => true
      | _ => false

theorem harmless_next {e : TransEvent n} (hharmless : harmless G i s e = true)
    (hnext : transNext G s e = some t) :
    t.store.backend = s.store.backend ∧ t.rank i = s.rank i := by
  cases e with
  | connect j l =>
    obtain ⟨-, -, -, rfl⟩ := transNext_connect hnext
    exact ⟨rfl, move_rank_of_ne (of_decide_eq_true hharmless).symm⟩
  | drop j =>
    obtain ⟨-, rfl⟩ := transNext_drop hnext
    exact ⟨rfl, move_rank_of_ne (of_decide_eq_true hharmless).symm⟩
  | clear j =>
    obtain ⟨l, hl, -, rfl⟩ := transNext_clear hnext
    obtain ⟨hj, hnone⟩ := of_decide_eq_true hharmless
    rw [clear_of_none (isNone_iff_eq_none.mp (hnone l hl))]
    exact ⟨rfl, move_rank_of_ne hj.symm⟩
  | expire l =>
    obtain rfl := transNext_expire hnext
    rw [clear_of_none (isNone_iff_eq_none.mp hharmless)]
    exact ⟨rfl, rfl⟩
  | generate j =>
    obtain ⟨-, -, -, -, rfl⟩ := transNext_generate hnext
    exact ⟨rfl, move_rank_of_ne (of_decide_eq_true hharmless).symm⟩
  | store j k desc =>
    obtain ⟨-, -, -, rfl⟩ := transNext_store hnext
    exact ⟨rfl, move_rank_of_ne (of_decide_eq_true hharmless).symm⟩
  | step j =>
    obtain ⟨l, q, p, ⟨-, hq, hp⟩, rfl⟩ := transNext_step hnext
    rw [harmless, hq, Bool.and_eq_true] at hharmless
    obtain ⟨hj, hget⟩ := hharmless
    refine ⟨?_, move_rank_of_ne (of_decide_eq_true hj).symm⟩
    -- A GET writes nothing.
    cases q with
    | getRank | getSlot k =>
      rw [← some.inj hp]
      exact get_backend _
    | _ => cases hget

theorem harmless_run {events : List (TransEvent n)}
    (h : ((transSystem G).restrict fun s e => harmless G i s e = true).run s events = some t) :
    t.store.backend = s.store.backend ∧ t.rank i = s.rank i := by
  induction events generalizing s with
  | nil =>
    obtain rfl : s = t := some.inj h
    exact ⟨rfl, rfl⟩
  | cons e events ih =>
    obtain ⟨s₁, hnext, hrest⟩ := bind_eq_some_iff.mp h
    obtain ⟨hharmless, hnext⟩ := ite_none_right_eq_some.mp hnext
    obtain ⟨hback, hclient⟩ := harmless_next hharmless hnext
    obtain ⟨hback', hclient'⟩ := ih hrest
    exact ⟨hback'.trans hback, hclient'.trans hclient⟩

end Meantime

/-! ### Reconnection -/

section Reconnect

variable {G : TransGroup n} {sizes : RecordSizes} {i : Fin n} {l l' : ℕ}
  {s s₁ s₂ s₃ : TransState n} {between : List (TransEvent n)}

theorem Intact.restores (hintact : Intact G sizes i l s) (hshape : Shape G s)
    (hback : s₂.store.backend = (s.store.clear l).backend) (hclient : s₂.rank i = (s.rank i).broken)
    (hqueue : s₂.store.handler.faultRankIdQueue = [])
    (hconnect : transNext G s₂ (.connect i l') = some s₃) : Restores G i s l s₃ l' := by
  obtain ⟨hkey, hranks⟩ := hintact.cleared hshape
  obtain ⟨-, -, -, rfl⟩ := transNext_connect hconnect
  have hconn : (s₂.rank i).connected l' = { s.rank i with
      link := some l', up := true, pc := .reGet, registered := false, result := false } := by
    rw [hclient, TransClient.connected]
    exact if_pos hintact.initialized
  rw [hconn]
  -- The rank id is registered again ..
  obtain ⟨u₁, hsteps₁, hu₁, hstore₁⟩ := reRegister_steps (c := { s.rank i with
      link := some l', up := true, pc := .reGet, registered := false, result := false })
    (s := s₂.move i _ s₂.store) move_rank_self rfl rfl rfl hintact.rankInfo
    hintact.rankId_lt
    (by rw [move_store, hback]; exact hkey) hqueue
    (by rw [move_store, hback, hranks]; exact hintact.ranks)
  -- .. and then the records are written and counted.
  have hrestoring := hintact.restoring hshape (s₂.store.handler.setLink l'
    (some (.new (s.rank i).rankId (TransKey.rank (G.name i)).key))) (FaultHandler.setLink_self _)
  rw [move_store, hback] at hstore₁
  rw [← hstore₁] at hrestoring
  obtain ⟨u, hsteps, hu, hdone⟩ := hrestoring.steps (c := { s.rank i with
      link := some l', up := true, pc := .reGet, registered := true, result := false }) rfl rfl hu₁
    hintact.records (length_slotsOf_device _)
  refine ⟨u, hsteps₁.trans hsteps, ?_, ?_, ?_, hdone.backend_eq, ?_⟩
  · rw [hu]
    rfl
  · rw [hu]
    rfl
  · rw [hu]
    rfl
  · rw [hdone.entry, hintact.entry]
    rfl

/-- A rank id that waits in the queue is handed out to the client, which takes it for an
error. -/
theorem not_restores_of_queued {id : ℕ} {rest : List ℕ} (hinit : (s₂.rank i).initialized = true)
    (hkey : s₂.store.backend (TransKey.rank (G.name i)).key = none)
    (hqueue : s₂.store.handler.faultRankIdQueue = id :: rest)
    (hconnect : transNext G s₂ (.connect i l') = some s₃) : ¬ Restores G i s l s₃ l' := by
  obtain ⟨-, -, -, rfl⟩ := transNext_connect hconnect
  have hpc : ((s₂.rank i).connected l').pc = .reGet := by
    rw [TransClient.connected, if_pos hinit]
  have hget : s₂.store.perform l' (G.name i) (G.role i) .getRank =
      some (⟨s₂.store.backend, { s₂.store.handler with faultRankIdQueue := rest }⟩,
        .got (.restore (Bytes.le 2 id))) := by
    rw [FaultStore.perform, get_rank_none (G.name_plain i) hkey, hqueue]
    rfl
  have hrequest : ((s₂.rank i).connected l').request G i = some .getRank := by
    rw [TransClient.request, hpc]
  have hfail : ((s₂.rank i).connected l').receive G i (.got (.restore (Bytes.le 2 id))) =
      ((s₂.rank i).connected l').fail := by
    rw [TransClient.receive, hpc]
  have hstep := transNext_step_of (G := G) (s := s₂.move i ((s₂.rank i).connected l') s₂.store)
    (i := i) (l := l') (by rw [move_rank_self]; simp)
    (by rw [move_rank_self]; simp) (by rw [move_rank_self]; exact hrequest)
    hget
  rw [move_rank_self, hfail, move_move] at hstep
  rintro ⟨u, ⟨m, hrun⟩, hidle, hres, -⟩
  -- The call is over after one step, with an error.
  rcases m with _ | _ | m
  · obtain rfl := some.inj hrun
    rw [move_rank_self, hpc] at hidle
    cases hidle
  · obtain rfl := some.inj ((run_cons hstep []).symm.trans hrun)
    rw [move_rank_self] at hres
    cases hres
  rw [replicate_succ] at hrun
  rw [run_cons hstep, replicate_succ] at hrun
  obtain ⟨u', hnext, -⟩ := bind_eq_some_iff.mp hrun
  obtain ⟨-, q, -, ⟨-, hq, -⟩, -⟩ := transNext_step (G := G) hnext
  rw [move_rank_self] at hq
  cases hq

/-- Where the server holds what the client remembers, and nobody registers while it is away,
`ReInitialize` restores the registration exactly if no rank id waits in the queue. -/
theorem reInitialize_restores_iff (G : TransGroup n) (sizes : RecordSizes)
    (hreach : (transSystem G).Reachable s) (hintact : Intact G sizes i l s)
    (hbreak : (transSystem G).run s [.drop i, .clear i] = some s₁)
    (hbetween : ((transSystem G).restrict fun s e => harmless G i s e = true).run s₁ between =
      some s₂)
    (hconnect : transNext G s₂ (.connect i l') = some s₃) :
    Restores G i s l s₃ l' ↔ s₂.store.handler.faultRankIdQueue = [] := by
  have hshape := shape_of_reachable hreach
  obtain ⟨hback, hclient⟩ := harmless_run hbetween
  rw [hintact.broken hbreak, move_rank_self] at hclient
  rw [hintact.broken hbreak, move_store] at hback
  refine ⟨fun hrestores => ?_, fun hqueue =>
    hintact.restores hshape hback hclient hqueue hconnect⟩
  cases hqueue : s₂.store.handler.faultRankIdQueue with
  | nil => rfl
  | cons id rest =>
    refine absurd hrestores (not_restores_of_queued ?_ ?_ hqueue hconnect)
    · rw [hclient]
      exact hintact.initialized
    · rw [hback]
      exact (hintact.cleared hshape).1

/-- `ClearFaultInfo` queues the client's own rank id, so a client that comes back alone fails. -/
theorem reInitialize_fails_alone (hreach : (transSystem G).Reachable s)
    (hintact : Intact G sizes i l s) (hbreak : (transSystem G).run s [.drop i, .clear i] = some s₁)
    (hconnect : transNext G s₁ (.connect i l') = some s₃) : ¬ Restores G i s l s₃ l' := by
  have hshape := shape_of_reachable hreach
  have hbroken := hintact.broken hbreak
  have hinit : (s₁.rank i).initialized = true := by
    rw [hbroken, move_rank_self]
    exact hintact.initialized
  have hkey : s₁.store.backend (TransKey.rank (G.name i)).key = none := by
    rw [hbroken]
    exact (hintact.cleared hshape).1
  have hqueue : s₁.store.handler.faultRankIdQueue =
      s.store.handler.faultRankIdQueue ++ [(s.rank i).rankId] := by
    rw [hbroken]
    exact hintact.rankId_queued hshape
  cases hold : s.store.handler.faultRankIdQueue with
  | nil
  | cons id rest =>
    exact not_restores_of_queued hinit hkey (hqueue.trans (by rw [hold]; rfl)) hconnect

/-- Both clients are initialized, the first with two slices; the second has lost its link and its
rank id. -/
def waitingEvents : List (TransEvent 2) :=
  initializeEvents 0 1 7 ++ initializeEvents 1 2 8 ++ storeSliceEvents 0 5 ++
    storeSliceEvents 0 6 ++ breakEvents 1 ++ returnEvents 1 3 1

/-- Before the first client is back, the second comes back again and takes the rank id that
waits in the queue, in vain. -/
theorem reInitialize_restores_two_slices :
    ∃ s s₁ s₂ s₃, (transSystem twoSenders).Reachable s ∧ Intact twoSenders twoBytes 0 1 s ∧
      slotsOf .slice (s.rank 0).stored = [0, 1] ∧
      (transSystem twoSenders).run s [.drop 0, .clear 0] = some s₁ ∧
      ((transSystem twoSenders).restrict fun s e => harmless twoSenders 0 s e = true).run s₁
        (breakEvents 1 ++ returnEvents 1 4 1) = some s₂ ∧
      s₂.store.handler.faultRankIdQueue = [] ∧
      transNext twoSenders s₂ (.connect 0 5) = some s₃ ∧ Restores twoSenders 0 s 1 s₃ 5 := by
  have hrun : ((transSystem twoSenders).run (transSystem twoSenders).start waitingEvents).map
      (fun s => (decide (Intact twoSenders twoBytes 0 1 s), slotsOf .slice (s.rank 0).stored,
        ((transSystem twoSenders).run s [.drop 0, .clear 0]).bind fun s₁ =>
          (((transSystem twoSenders).restrict fun s e => harmless twoSenders 0 s e = true).run s₁
            (breakEvents 1 ++ returnEvents 1 4 1)).bind fun s₂ =>
              (transNext twoSenders s₂ (.connect 0 5)).map fun _ =>
                s₂.store.handler.faultRankIdQueue)) = some (true, [0, 1], some []) := by
    decide +kernel
  obtain ⟨s, hreach, hfacts⟩ := TransitionSystem.exists_of_run hrun
  rw [Prod.mk.injEq, Prod.mk.injEq] at hfacts
  obtain ⟨hintact, hslots, hrest⟩ := hfacts
  have hintact := of_decide_eq_true hintact
  obtain ⟨s₁, hbreak, hrest⟩ := bind_eq_some_iff.mp hrest
  obtain ⟨s₂, hbetween, hrest⟩ := bind_eq_some_iff.mp hrest
  obtain ⟨s₃, hconnect, hqueue⟩ := map_eq_some_iff.mp hrest
  exact ⟨s, s₁, s₂, s₃, hreach, hintact, hslots, hbreak, hbetween, hqueue, hconnect,
    (reInitialize_restores_iff twoSenders twoBytes hreach hintact hbreak hbetween hconnect).mpr
      hqueue⟩

/-- A client with one slice loses its link and comes back, and nothing else happens. -/
theorem reconnect_alone_fails :
    ∃ s s₁ s₃, (transSystem twoSenders).Reachable s ∧ Intact twoSenders twoBytes 0 1 s ∧
      (transSystem twoSenders).run s [.drop 0, .clear 0] = some s₁ ∧
      transNext twoSenders s₁ (.connect 0 3) = some s₃ ∧ ¬ Restores twoSenders 0 s 1 s₃ 3 := by
  have hrun : ((transSystem twoSenders).run (transSystem twoSenders).start
      (initializeEvents 0 1 7 ++ storeSliceEvents 0 8)).map
      (fun s => (decide (Intact twoSenders twoBytes 0 1 s),
        (((transSystem twoSenders).run s [.drop 0, .clear 0]).bind fun s₁ =>
          transNext twoSenders s₁ (.connect 0 3)).map fun _ => ())) = some (true, some ()) := by
    decide +kernel
  obtain ⟨s, hreach, hfacts⟩ := TransitionSystem.exists_of_run hrun
  rw [Prod.mk.injEq] at hfacts
  have hintact := of_decide_eq_true hfacts.1
  obtain ⟨s₃, hrest, -⟩ := map_eq_some_iff.mp hfacts.2
  obtain ⟨s₁, hbreak, hconnect⟩ := bind_eq_some_iff.mp hrest
  exact ⟨s, s₁, s₃, hreach, hintact, hbreak, hconnect,
    reInitialize_fails_alone hreach hintact hbreak hconnect⟩

end Reconnect

end Trans
