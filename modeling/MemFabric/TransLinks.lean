/-
What the server remembers of the links of trans clients.

There are five kinds of slots (`SlotKind`): rank ids, and for each kind of record and each role
the slots of the info key.  A slot is `owned` by a link whose entry names it, or waits in the
`queue` of its kind.

* `RankInfo.Of` — what an entry looks like: its keys are those of one role.
* `perform_effect` — a request writes to its own key and touches the entry of its own link only,
  and keeps it so (`Effect.linkStep`).
* `clear_of_some`, `Shape.clear_queue`, `Shape.clear_owned`, .. — what handling a broken link does.
* `Shape` — the invariant of all runs that collects these facts.
-/
import MemFabric.TransClient

namespace Trans

open Function Option FaultHandler FaultStore TransClient SharedState

open ConfigStore

/-! ### Slots -/

/-- Rank ids, and the slots of an info key. -/
inductive SlotKind
  | rank
  | record (k : RecordKind) (r : Role)
  deriving DecidableEq

def SlotKind.key : SlotKind → Key
  | rank => TransKey.ranksInfo.key
  | record k r => (TransKey.info k r).key

def RankInfo.owned (info : RankInfo) : SlotKind → List ℕ
  | .rank => [info.rankId]
  | .record k r =>
    if (info.record k).infoKey = (TransKey.info k r).key then (info.record k).infoId else []

variable {l : ℕ} {info : RankInfo}

namespace FaultHandler

def queue (h : FaultHandler) : SlotKind → List ℕ
  | .rank => h.faultRankIdQueue
  | .record k r => h.faultIdQueue k r

def owned (h : FaultHandler) (linkId : ℕ) (κ : SlotKind) : List ℕ :=
  ((h.linkIdToRankInfoMap linkId).map fun info => info.owned κ).getD []

variable {h : FaultHandler} {linkId : ℕ} {κ : SlotKind}

theorem setLink_self (info : Option RankInfo) :
    (h.setLink linkId info).linkIdToRankInfoMap linkId = info := update_self ..

theorem setLink_of_ne (hl : l ≠ linkId) (info : Option RankInfo) :
    (h.setLink linkId info).linkIdToRankInfoMap l = h.linkIdToRankInfoMap l :=
  update_of_ne hl ..

theorem queue_setLink (info : Option RankInfo) : (h.setLink linkId info).queue κ = h.queue κ := by
  cases κ <;> rfl

theorem owned_setLink_of_ne (hl : l ≠ linkId) (info : Option RankInfo) :
    (h.setLink linkId info).owned l κ = h.owned l κ := by
  rw [owned, setLink_of_ne hl, owned]

theorem owned_setLink_self (info : RankInfo) :
    (h.setLink linkId (some info)).owned linkId κ = info.owned κ := by
  rw [owned, setLink_self, map_some, getD_some]

theorem owned_of_some (hlink : h.linkIdToRankInfoMap linkId = some info) :
    h.owned linkId κ = info.owned κ := by
  rw [owned, hlink, map_some, getD_some]

theorem owned_of_none (hlink : h.linkIdToRankInfoMap linkId = none) : h.owned linkId κ = [] := by
  rw [owned, hlink, map_none, getD_none]

theorem queue_setIdQueue (k : RecordKind) (r : Role) (queue : List ℕ) :
    (h.setIdQueue k r queue).queue κ = if κ = .record k r then queue else h.queue κ := by
  cases κ with
  | rank => rfl
  | record k' r' =>
    simp only [FaultHandler.queue, setIdQueue, update_apply, SlotKind.record.injEq]
    by_cases hk : k' = k
    · subst hk
      by_cases hr : r' = r <;> simp [hr]
    · simp [hk]

end FaultHandler

/-! ### Entries -/

/-- The entry of a link of a client of role `r`: the keys in it are those of the role, an info
key that is named exists, and a device has one slot. -/
structure RankInfo.Of (b : Backend) (r : Role) (info : RankInfo) : Prop where
  name : ∃ name, info.rankName = (TransKey.rank name).key
  infoKey : ∀ k, ((info.record k).infoKey = [] ∧ (k = .slice → (info.record k).infoId = [])) ∨
    (info.record k).infoKey = (TransKey.info k r).key
  present : ∀ k, (info.record k).infoKey = (TransKey.info k r).key →
    (b (TransKey.info k r).key).isSome = true
  countKey : ∀ k, (info.record k).countKey = [] ∨
    (info.record k).countKey = (TransKey.count k r).key
  single : (info.record .device).infoId.length = 1

namespace RankInfo

variable {b b' : Backend} {r : Role} {info : RankInfo}

theorem Of.mono (h : info.Of b r)
    (hb : ∀ k r, (b (TransKey.info k r).key).isSome → (b' (TransKey.info k r).key).isSome) :
    info.Of b' r :=
  { h with present := fun k hk => hb k r (h.present k hk) }

theorem of_new (b : Backend) (r : Role) (rankId : ℕ) (name : Bytes) :
    (RankInfo.new rankId (TransKey.rank name).key).Of b r where
  name := ⟨name, rfl⟩
  infoKey k := .inl (by cases k <;> exact ⟨rfl, fun _ => by first | rfl | contradiction⟩)
  present k hk := by cases k <;> exact absurd hk.symm (TransKey.key_ne_nil _)
  countKey k := .inl (by cases k <;> rfl)
  single := rfl

theorem Of.put (h : info.Of b r) {k : RecordKind} {index size : ℕ}
    (hb : ∀ k r, (b (TransKey.info k r).key).isSome → (b' (TransKey.info k r).key).isSome)
    (hkey : (b' (TransKey.info k r).key).isSome) :
    (info.modify k fun i => i.put k index size (TransKey.info k r).key).Of b' r where
  name := by
    rw [rankName_modify]
    exact h.name
  infoKey k' := by
    by_cases hk : k' = k
    · subst hk
      rw [record_modify_self]
      exact .inr rfl
    · rw [record_modify_of_ne hk]
      exact h.infoKey k'
  present k' hk' := by
    by_cases hk : k' = k
    · exact hk ▸ hkey
    · rw [record_modify_of_ne hk] at hk'
      exact hb k' r (h.present k' hk')
  countKey k' := by
    have hsame : ((info.modify k fun i =>
        i.put k index size (TransKey.info k r).key).record k').countKey =
        (info.record k').countKey := by
      rw [record_modify]
      split
      next hk =>
        subst hk
        rfl
      next => rfl
    rw [hsame]
    exact h.countKey k'
  single := by
    cases k with
    | device => rfl
    | slice => exact h.single

theorem Of.count (h : info.Of b r) (k : RecordKind) :
    (info.modify k fun i => { i with countKey := (TransKey.count k r).key }).Of b r := by
  have hrec : ∀ k', ((info.modify k fun i =>
      { i with countKey := (TransKey.count k r).key }).record k').infoKey =
        (info.record k').infoKey ∧
      ((info.modify k fun i => { i with countKey := (TransKey.count k r).key }).record k').infoId =
        (info.record k').infoId := by
    intro k'
    rw [record_modify]
    split
    next hk =>
      subst hk
      exact ⟨rfl, rfl⟩
    next => exact ⟨rfl, rfl⟩
  refine ⟨?_, fun k' => ?_, fun k' => ?_, fun k' => ?_, ?_⟩
  · rw [rankName_modify]
    exact h.name
  · rw [(hrec k').1, (hrec k').2]
    exact h.infoKey k'
  · rw [(hrec k').1]
    exact h.present k'
  · by_cases hk : k' = k
    · subst hk
      rw [record_modify_self]
      exact .inr rfl
    · rw [record_modify_of_ne hk]
      exact h.countKey k'
  · rw [(hrec _).2]
    exact h.single

theorem Of.owned_of_ne (h : info.Of b r) {k : RecordKind} {r' : Role} (hr : r' ≠ r) :
    info.owned (.record k r') = [] := by
  refine if_neg fun hkey => ?_
  rcases h.infoKey k with ⟨hnil, -⟩ | hkey'
  · exact TransKey.key_ne_nil _ (hkey.symm.trans hnil)
  · have := TransKey.key_injective (hkey.symm.trans hkey')
    exact hr (TransKey.info.inj this).2

end RankInfo

/-! ### Requests -/

def Request.target (name : Bytes) (r : Role) : Request → TransKey
  | .getRank => .rank name
  | .setRank _ => .rank name
  | .appendRanks _ => .ranksInfo
  | .writeRanks _ _ => .ranksInfo
  | .getSlot k => .id k r
  | .appendRecord k _ => .info k r
  | .writeRecord k _ _ => .info k r
  | .addCount k => .count k r

def Request.kind (r : Role) : Request → Option SlotKind
  | .getRank => some .rank
  | .setRank _ => some .rank
  | .appendRanks _ => some .rank
  | .writeRanks _ _ => some .rank
  | .getSlot k => some (.record k r)
  | .appendRecord k _ => some (.record k r)
  | .writeRecord k _ _ => some (.record k r)
  | .addCount _ => none

/-- What a request over link `linkId` of a client of role `r` does to the entries. -/
structure LinkStep (linkId : ℕ) (r : Role) (s s' : FaultStore) : Prop where
  nil : s'.backend [] = s.backend []
  other : ∀ l, l ≠ linkId → s'.handler.linkIdToRankInfoMap l = s.handler.linkIdToRankInfoMap l
  kept : ∀ k r, (s.backend (TransKey.info k r).key).isSome →
    (s'.backend (TransKey.info k r).key).isSome
  entry : ∀ {info}, s'.handler.linkIdToRankInfoMap linkId = some info → info.Of s'.backend r

/-- The backend is the same or has got another value under this key. -/
def WrittenAt (key : TransKey) (s s' : FaultStore) : Prop :=
  s'.backend = s.backend ∨ ∃ v, s'.backend = update s.backend key.key (some v)

variable {key : Key}

section LinkStep

variable {s s' : FaultStore} {linkId : ℕ} {r : Role} {name : Bytes} {t : TransKey}

theorem WrittenAt.of_ne (h : WrittenAt t s s') (hkey : key ≠ t.key) :
    s'.backend key = s.backend key := by
  rcases h with h | ⟨v, h⟩
  · rw [h]
  · rw [h, update_of_ne hkey]

theorem WrittenAt.isSome (h : WrittenAt t s s') (hkey : (s.backend key).isSome) :
    (s'.backend key).isSome := by
  rcases h with h | ⟨v, h⟩
  · rwa [h]
  rw [h, update_apply]
  split
  · rfl
  · exact hkey

theorem LinkStep.sameLinks (hown : ∀ {info}, s.handler.linkIdToRankInfoMap linkId = some info →
    info.Of s.backend r) (hb : WrittenAt t s s')
    (hlinks : s'.handler.linkIdToRankInfoMap = s.handler.linkIdToRankInfoMap) :
    LinkStep linkId r s s' where
  nil := hb.of_ne (TransKey.key_ne_nil t).symm
  other l _ := by rw [hlinks]
  kept k r := hb.isSome
  entry hinfo := (hown (hlinks ▸ hinfo)).mono fun _ _ => hb.isSome

theorem LinkStep.setLink (hb : WrittenAt t s s')
    (hlinks : s'.handler = s.handler.setLink linkId (some info)) (hinfo : info.Of s'.backend r) :
    LinkStep linkId r s s' where
  nil := hb.of_ne (TransKey.key_ne_nil t).symm
  other l hl := by rw [hlinks, setLink_of_ne hl]
  kept k r := hb.isSome
  entry hnew := by
    rw [hlinks, setLink_self] at hnew
    exact some.inj hnew ▸ hinfo

/-- What a request over link `linkId` of a client with the given name and role does to the
handler. -/
inductive Effect (linkId : ℕ) (name : Bytes) (r : Role) (s s' : FaultStore) : Request → Prop
  | queues {q : Request} (hlinks : s'.handler.linkIdToRankInfoMap = s.handler.linkIdToRankInfoMap)
      (hqueue : ∀ κ, q.kind r ≠ some κ → s'.handler.queue κ = s.handler.queue κ) :
      Effect linkId name r s s' q
  | registered {rankId : ℕ} (hhand : s'.handler = s.handler.setLink linkId
      (some (.new (rankId % 2 ^ 16) (TransKey.rank name).key))) :
      Effect linkId name r s s' (.setRank rankId)
  | put {q : Request} {k : RecordKind} {info : RankInfo} (index size : ℕ)
      (hkind : q.kind r = some (.record k r))
      (hlink : s.handler.linkIdToRankInfoMap linkId = some info)
      (hhand : s'.handler = s.handler.setLink linkId (some (info.modify k fun i =>
        i.put k index size (TransKey.info k r).key)))
      (hkey : (s'.backend (TransKey.info k r).key).isSome) :
      Effect linkId name r s s' q
  | counted {k : RecordKind} {info : RankInfo}
      (hlink : s.handler.linkIdToRankInfoMap linkId = some info)
      (hhand : s'.handler = s.handler.setLink linkId (some (info.modify k fun i =>
        { i with countKey := (TransKey.count k r).key }))) :
      Effect linkId name r s s' (.addCount k)

variable {q : Request}

theorem Effect.unchanged (h : s'.handler = s.handler) : Effect linkId name r s s' q :=
  .queues (congrArg _ h) fun κ _ => congrArg (queue · κ) h

theorem perform_effect (hname : 95 ∉ name) {p : FaultStore × Outcome}
    (hcfg : ∀ cfg, q = .appendRanks cfg → cfg ≠ []) (h : s.perform linkId name r q = some p) :
    WrittenAt (q.target name r) s p.1 ∧ Effect linkId name r s p.1 q := by
  cases q with
  | getRank =>
    rw [← some.inj h]
    rcases get_rank_cases hname with ⟨reply, hget, -⟩ | ⟨id, rest, -, hget⟩
    · rw [hget]
      exact ⟨.inl rfl, .unchanged rfl⟩
    rw [hget]
    refine ⟨.inl rfl, .queues rfl fun κ hκ => ?_⟩
    cases κ with
    | rank => exact absurd rfl hκ
    | record k r => rfl
  | getSlot k =>
    rw [← some.inj h]
    rcases get_id_cases k r with ⟨reply, hget, -⟩ | ⟨id, rest, -, hget⟩
    · rw [hget]
      exact ⟨.inl rfl, .unchanged rfl⟩
    rw [hget]
    refine ⟨.inl rfl, .queues rfl fun κ hκ => ?_⟩
    exact (queue_setIdQueue ..).trans (if_neg fun h => hκ (congrArg some h.symm))
  | setRank rankId =>
    rw [perform, set_rank] at h
    rw [← some.inj h]
    exact ⟨.inr ⟨_, rfl⟩, .registered rfl⟩
  | appendRanks cfg =>
    rw [perform, append_ranksInfo (hcfg cfg rfl), map_some] at h
    rw [← some.inj h]
    exact ⟨.inr ⟨_, rfl⟩, .unchanged rfl⟩
  | writeRanks slot cfg =>
    obtain ⟨p₁, hwrite, rfl⟩ := map_eq_some_iff.mp h
    rcases write_cases hwrite with ⟨-, hhand, hb⟩ | ⟨-, index, v, hb, hput⟩
    · exact ⟨hb, .unchanged hhand⟩
    · rw [putRankInfoMap_ranksInfo, Prod.mk.injEq] at hput
      exact ⟨.inr ⟨v, hb⟩, .unchanged hput.2.symm⟩
  | appendRecord k rec =>
    rw [perform, append_info rec.bytes_ne_nil] at h
    cases hlink : s.handler.linkIdToRankInfoMap linkId with
    | none =>
      rw [hlink, map_some] at h
      rw [← some.inj h]
      exact ⟨.inr ⟨_, rfl⟩, .unchanged rfl⟩
    | some info =>
      rw [hlink, map_some] at h
      rw [← some.inj h]
      refine ⟨.inr ⟨_, rfl⟩, .put _ _ rfl hlink rfl ?_⟩
      simp only [Prod.map_fst, id, grown, update_self, isSome_some]
  | writeRecord k slot rec =>
    obtain ⟨p₁, hwrite, rfl⟩ := map_eq_some_iff.mp h
    rcases write_cases hwrite with ⟨-, hhand, hb⟩ | ⟨-, index, v, hb, hput⟩
    · exact ⟨hb, .unchanged hhand⟩
    rw [putRankInfoMap_info, updateLink] at hput
    cases hlink : s.handler.linkIdToRankInfoMap linkId with
    | none =>
      rw [hlink, Prod.mk.injEq] at hput
      cases hput.1
    | some info =>
      rw [hlink, Prod.mk.injEq] at hput
      refine ⟨.inr ⟨v, hb⟩, .put _ _ rfl hlink hput.2.symm ?_⟩
      rw [Prod.map_fst, id, hb, update_self]
      rfl
  | addCount k =>
    rw [perform, addOne_count] at h
    cases hlink : s.handler.linkIdToRankInfoMap linkId with
    | none =>
      rw [hlink, map_some] at h
      rw [← some.inj h]
      exact ⟨.inl rfl, .unchanged rfl⟩
    | some info =>
      rw [hlink] at h
      obtain ⟨p₁, hadd, rfl⟩ := map_eq_some_iff.mp h
      obtain ⟨_ | text, -, rfl⟩ := map_eq_some_iff.mp hadd
      · exact ⟨.inl rfl, .counted hlink rfl⟩
      · exact ⟨.inr ⟨_, rfl⟩, .counted hlink rfl⟩

theorem Effect.linkStep (h : Effect linkId name r s s' q)
    (hown : ∀ {info}, s.handler.linkIdToRankInfoMap linkId = some info → info.Of s.backend r)
    (hb : WrittenAt t s s') : LinkStep linkId r s s' := by
  cases h with
  | queues hlinks => exact .sameLinks hown hb hlinks
  | registered hhand => exact .setLink hb hhand (RankInfo.of_new ..)
  | put index size hkind hlink hhand hkey =>
    exact .setLink hb hhand ((hown hlink).put (fun _ _ => hb.isSome) hkey)
  | counted hlink hhand =>
    exact .setLink hb hhand (((hown hlink).count _).mono fun _ _ => hb.isSome)

end LinkStep

/-! ### Broken links -/

/-- The text of a count after the loss of the records of an entry. -/
def lowered (k : RecordKind) (rec : RecordInfo) (value : Bytes) : Bytes :=
  match Decimal.string2Int value with
  | none => value
  | some valueNum => Decimal.ofInt (Decimal.wrap64 (valueNum - rec.lost k))

theorem markAbnormal_length (infoUnit : ℕ) (ids : List ℕ) (value : Bytes) :
    (FaultHandler.markAbnormal infoUnit ids value).length = value.length := by
  rw [markAbnormal]
  induction ids generalizing value with
  | nil => rfl
  | cons id ids ih => rw [List.foldl_cons, ih, List.length_set]

namespace FaultHandler

variable {h : FaultHandler} {b : Backend} {r : Role} {info : RankInfo}

theorem setIdQueue_self (k : RecordKind) : h.setIdQueue k r (h.faultIdQueue k r) = h := by
  rw [setIdQueue, update_eq_self, update_eq_self]

theorem clearSlots_of (hof : info.Of b r) (hnil : b [] = none) (k : RecordKind) :
    clearSlots k (info.record k) h b =
      (h.setIdQueue k r (h.faultIdQueue k r ++ info.owned (.record k r)),
        Function.update b (TransKey.info k r).key ((b (TransKey.info k r).key).map
          (markAbnormal (info.record k).infoUnit (info.owned (.record k r))))) := by
  rcases hof.infoKey k with ⟨hkey, -⟩ | hkey
  · -- Nothing was registered.
    have howned : info.owned (.record k r) = [] :=
      if_neg fun hne => TransKey.key_ne_nil _ (hne.symm.trans hkey)
    have hmark : markAbnormal (info.record k).infoUnit [] = id := rfl
    rw [clearSlots, hkey, hnil, howned, List.append_nil, setIdQueue_self, hmark, map_id,
      id, update_eq_self]
  have howned : info.owned (.record k r) = (info.record k).infoId := if_pos hkey
  obtain ⟨old, hold⟩ := isSome_iff_exists.mp (hof.present k hkey)
  have hrole : (if find (TransKey.info k r).key (infoText k .sender) then Role.sender
      else Role.receiver) = r := by
    rw [find_info]
    cases r <;> simp
  simp only [clearSlots, hkey, hold, hrole, howned, map_some, Backend.put_snd]

theorem clearCount_of (hof : info.Of b r) {b' : Backend} (hnil : b' [] = none) (k : RecordKind) :
    clearCount k (info.record k) b' =
      Function.update b' (TransKey.count k r).key ((b' (TransKey.count k r).key).map
        (if (info.record k).countKey = (TransKey.count k r).key then lowered k (info.record k)
          else id)) := by
  rcases hof.countKey k with hkey | hkey
  · rw [clearCount, hkey, hnil, if_neg (TransKey.key_ne_nil _).symm, map_id, id, update_eq_self]
  rw [clearCount, hkey, if_pos rfl]
  cases hold : b' (TransKey.count k r).key with
  | none =>
    have hsame := update_eq_self (TransKey.count k r).key b'
    rw [hold] at hsame
    exact hsame.symm
  | some value =>
    simp only [map_some, lowered]
    cases Decimal.string2Int value with
    | none => rw [← hold, update_eq_self]
    | some valueNum => rfl

end FaultHandler

section Clear

variable {s : FaultStore} {linkId : ℕ} {r : Role} {info : RankInfo}

theorem clear_of_none (hlink : s.handler.linkIdToRankInfoMap linkId = none) :
    s.clear linkId = s := by
  rw [clear, clearFaultInfo, hlink]

/-- The backend after the records of one kind have been cleared. -/
def clearedOf (k : RecordKind) (r : Role) (info : RankInfo) (b : Backend) : Backend :=
  let b' := update b (TransKey.info k r).key ((b (TransKey.info k r).key).map
    (FaultHandler.markAbnormal (info.record k).infoUnit (info.owned (.record k r))))
  update b' (TransKey.count k r).key ((b' (TransKey.count k r).key).map
    (if (info.record k).countKey = (TransKey.count k r).key then lowered k (info.record k) else id))

variable {b : Backend} {k : RecordKind}

theorem clearedOf_of_ne (hinfo : key ≠ (TransKey.info k r).key)
    (hcount : key ≠ (TransKey.count k r).key) : clearedOf k r info b key = b key := by
  rw [clearedOf, update_of_ne hcount, update_of_ne hinfo]

theorem clearedOf_info :
    clearedOf k r info b (TransKey.info k r).key = (b (TransKey.info k r).key).map
      (FaultHandler.markAbnormal (info.record k).infoUnit (info.owned (.record k r))) := by
  rw [clearedOf, update_of_ne (by simp), update_self]

theorem clearedOf_count :
    clearedOf k r info b (TransKey.count k r).key = (b (TransKey.count k r).key).map
      (if (info.record k).countKey = (TransKey.count k r).key then lowered k (info.record k)
        else id) := by
  rw [clearedOf, update_self, update_of_ne (by simp)]

theorem clearRecordInfo_of (hof : info.Of b r) (hnil : b [] = none) (h : FaultHandler)
    (k : RecordKind) :
    FaultHandler.clearRecordInfo k (info.record k) h b =
      (h.setIdQueue k r (h.faultIdQueue k r ++ info.owned (.record k r)),
        clearedOf k r info b) := by
  rw [clearRecordInfo, clearSlots_of hof hnil]
  have hnil' : update b (TransKey.info k r).key ((b (TransKey.info k r).key).map
      (markAbnormal (info.record k).infoUnit (info.owned (.record k r)))) [] =
      none := by
    rw [update_of_ne (TransKey.key_ne_nil _).symm, hnil]
  exact Prod.ext rfl (clearCount_of hof hnil' k)

section

variable (hlink : s.handler.linkIdToRankInfoMap linkId = some info)
include hlink

section

variable (hof : info.Of s.backend r) (hnil : s.backend [] = none)
include hof hnil

theorem clear_of_some :
    (s.clear linkId).backend = update
        (clearedOf .slice r info (clearedOf .device r info s.backend)) info.rankName none ∧
      (s.clear linkId).handler.linkIdToRankInfoMap =
        update s.handler.linkIdToRankInfoMap linkId none ∧
      ∀ κ, (s.clear linkId).handler.queue κ = s.handler.queue κ ++ info.owned κ := by
  have hdev := clearRecordInfo_of hof hnil s.handler .device
  have hof' : info.Of (clearedOf .device r info s.backend) r := by
    refine hof.mono fun k r' hsome => ?_
    by_cases hk : TransKey.info k r' = TransKey.info .device r
    · rw [hk] at hsome ⊢
      rw [clearedOf_info, isSome_map]
      exact hsome
    · rwa [clearedOf_of_ne (by simpa using hk) (by simp)]
  have hnil' : clearedOf .device r info s.backend [] = none := by
    rw [clearedOf_of_ne (TransKey.key_ne_nil _).symm (TransKey.key_ne_nil _).symm, hnil]
  have hslice := fun h => clearRecordInfo_of hof' hnil' h .slice
  have hrecords : info.dInfo = info.record .device ∧ info.sInfo = info.record .slice := ⟨rfl, rfl⟩
  rw [clear, clearFaultInfo, hlink]
  simp only [clearDeviceInfo, clearSliceInfo, hrecords, hdev, hslice, Backend.delete_snd]
  refine ⟨trivial, rfl, fun κ => ?_⟩
  cases κ with
  | rank => rfl
  | record k r' =>
    show ((s.handler.setIdQueue .device r _).setIdQueue .slice r _).queue (.record k r') = _
    rw [queue_setIdQueue, queue_setIdQueue]
    by_cases hr : r' = r
    · subst hr
      cases k with
      | device =>
        rw [if_neg (by simp), if_pos rfl]
        rfl
      | slice =>
        have hother : (s.handler.setIdQueue .device r' (s.handler.faultIdQueue .device r' ++
            info.owned (.record .device r'))).queue (.record .slice r') =
            s.handler.queue (.record .slice r') := by
          rw [queue_setIdQueue, if_neg (by simp)]
        rw [if_pos rfl, ← hother]
        rfl
    · have hne : ∀ k', SlotKind.record k r' ≠ .record k' r := fun k' h =>
        hr (SlotKind.record.inj h).2
      rw [if_neg (hne _), if_neg (hne _), hof.owned_of_ne hr, List.append_nil]

/-! The parts of this, key by key and queue by queue. -/

theorem clear_queue (κ : SlotKind) :
    (s.clear linkId).handler.queue κ = s.handler.queue κ ++ info.owned κ :=
  (clear_of_some hlink hof hnil).2.2 κ

theorem clear_links :
    (s.clear linkId).handler.linkIdToRankInfoMap =
      update s.handler.linkIdToRankInfoMap linkId none :=
  (clear_of_some hlink hof hnil).2.1

theorem clear_backend_info (k : RecordKind) (r' : Role) :
    (s.clear linkId).backend (TransKey.info k r').key = (s.backend (TransKey.info k r').key).map
        (FaultHandler.markAbnormal (info.record k).infoUnit (info.owned (.record k r'))) := by
  obtain ⟨name, hname⟩ := hof.name
  rw [(clear_of_some hlink hof hnil).1, hname, update_of_ne (by simp)]
  by_cases hr : r' = r
  · subst hr
    cases k with
    | device => rw [clearedOf_of_ne (by simp) (by simp), clearedOf_info]
    | slice => rw [clearedOf_info, clearedOf_of_ne (by simp) (by simp)]
  · have hmark : markAbnormal (info.record k).infoUnit [] = id := rfl
    rw [clearedOf_of_ne (by simp [hr]) (by simp), clearedOf_of_ne (by simp [hr]) (by simp),
      hof.owned_of_ne hr, hmark, map_id, id]

theorem clear_backend_count (k : RecordKind) (r' : Role) :
    (s.clear linkId).backend (TransKey.count k r').key = (s.backend (TransKey.count k r').key).map
        (if (info.record k).countKey = (TransKey.count k r').key then lowered k (info.record k)
          else id) := by
  obtain ⟨name, hname⟩ := hof.name
  rw [(clear_of_some hlink hof hnil).1, hname, update_of_ne (by simp)]
  by_cases hr : r' = r
  · subst hr
    cases k with
    | device => rw [clearedOf_of_ne (by simp) (by simp), clearedOf_count]
    | slice => rw [clearedOf_count, clearedOf_of_ne (by simp) (by simp)]
  have hcount : (info.record k).countKey ≠ (TransKey.count k r').key := by
    intro hkey
    rcases hof.countKey k with hnone | hown
    · exact TransKey.key_ne_nil _ (hkey.symm.trans hnone)
    · exact hr (TransKey.count.inj (TransKey.key_injective (hkey.symm.trans hown))).2
  rw [clearedOf_of_ne (by simp) (by simp [hr]), clearedOf_of_ne (by simp) (by simp [hr]),
    if_neg hcount, map_id, id]

theorem clear_backend_other (hname : key ≠ info.rankName)
    (hinfo : ∀ k, key ≠ (TransKey.info k r).key) (hcount : ∀ k, key ≠ (TransKey.count k r).key) :
    (s.clear linkId).backend key = s.backend key := by
  rw [(clear_of_some hlink hof hnil).1, update_of_ne hname,
    clearedOf_of_ne (hinfo _) (hcount _), clearedOf_of_ne (hinfo _) (hcount _)]

theorem clear_backend_rankName :
    (s.clear linkId).backend info.rankName = none := by
  rw [(clear_of_some hlink hof hnil).1, update_self]

end

end

end Clear

/-! ### The invariant -/

/-- In `GenerateRankId`, before the id is kept. -/
def ClientPc.generating : ClientPc → Bool
  | .genGet | .genAppend | .recWrite => true
  | _ => false

namespace TransClient

/-- The configuration kept for `ReRegisterToServer` is that of the client's rank id; there is
none before the id is known. -/
structure RankKept (c : TransClient) : Prop where
  generating : c.pc.generating = true → c.storeRankIdInfo.2 = []
  kept : c.storeRankIdInfo.2 = [] ∨
    (c.storeRankIdInfo.1 = c.rankId ∧ c.storeRankIdInfo.2.length = 24)

variable {c : TransClient} {n : ℕ} {G : TransGroup n} {i : Fin n}

theorem RankKept.congr (h : c.RankKept) {c' : TransClient}
    (hinfo : c'.storeRankIdInfo = c.storeRankIdInfo) (hid : c'.rankId = c.rankId)
    (hpc : c'.pc.generating = true → c.pc.generating = true) : c'.RankKept := by
  refine ⟨fun hgen => ?_, ?_⟩
  · rw [hinfo]
    exact h.generating (hpc hgen)
  · rw [hinfo, hid]
    exact h.kept

@[simp] theorem resume_generating (todo : List Stored) :
    (c.resume todo).pc.generating = false := by
  cases todo <;> rfl

theorem RankKept.receive (h : c.RankKept) (o : Outcome) : (c.receive G i o).RankKept := by
  -- Most outcomes do not touch the id and leave `GenerateRankId`, if the client was in it.
  have hstay : ∀ {c' : TransClient}, c'.storeRankIdInfo = c.storeRankIdInfo →
      c'.rankId = c.rankId → c'.pc.generating = false → c'.RankKept := fun hinfo hid hpc =>
    h.congr hinfo hid fun hgen => absurd hgen (by rw [hpc]; exact Bool.false_ne_true)
  have hclaim : ∀ id, (c.claim id (G.cfg i)).RankKept := fun id =>
    ⟨nofun, .inr ⟨rfl, G.cfg_length i⟩⟩
  have hread : c.pc = .genGet → ∀ {c' : TransClient}, c'.storeRankIdInfo = c.storeRankIdInfo →
      c'.RankKept := by
    intro hpc c' hinfo
    have hnil := h.generating (by rw [hpc]; rfl)
    exact ⟨fun _ => hinfo ▸ hnil, .inl (hinfo ▸ hnil)⟩
  fun_cases receive
  all_goals first
    | exact hclaim _
    | (refine hstay ?_ ?_ ?_ <;> first | rfl | simp [goto, fail, reRegistered] ; done)
    | exact hread ‹_› rfl

end TransClient

variable {n : ℕ} {G : TransGroup n} {s s' : TransState n} {i : Fin n}

theorem Performed.effect {p : FaultStore × Outcome} (h : Performed G s i l q p) :
    WrittenAt (q.target (G.name i) (G.role i)) s.store p.1 ∧
      Effect l (G.name i) (G.role i) s.store p.1 q :=
  perform_effect (G.name_plain i) (appended_ne_nil G i _ h.request) h.result

/-- The invariant of all runs: the links of the clients differ, what is remembered of a link is
of the role of its client, and every client keeps the configuration of its own rank id. -/
structure Shape (G : TransGroup n) (s : TransState n) : Prop where
  nil : s.store.backend [] = none
  links : ∀ {i j l}, (s.rank i).link = some l → (s.rank j).link = some l → i = j
  entry : ∀ {l info}, s.store.handler.linkIdToRankInfoMap l = some info →
    ∃ r, info.Of s.store.backend r ∧ ∀ i, (s.rank i).link = some l → G.role i = r
  memory : ∀ i, (s.rank i).RankKept

theorem Shape.own (h : Shape G s) (hlink : (s.rank i).link = some l)
    (hinfo : s.store.handler.linkIdToRankInfoMap l = some info) :
    info.Of s.store.backend (G.role i) := by
  obtain ⟨r, hof, hrole⟩ := h.entry hinfo
  rw [hrole i hlink]
  exact hof

variable {c : TransClient}

section

variable (h : Shape G s)
include h

theorem Shape.moveClient (hmemory : c.RankKept)
    (hlink : ∀ {l}, c.link = some l → (s.rank i).link = some l ∨
      ((∀ j, (s.rank j).link ≠ some l) ∧ s.store.handler.linkIdToRankInfoMap l = none)) :
    Shape G (s.move i c s.store) where
  nil := h.nil
  links {j k l} hj hk := by
    by_cases hji : j = i <;> by_cases hki : k = i
    · rw [hji, hki]
    · rw [hji, move_rank_self] at hj
      rw [move_rank_of_ne hki] at hk
      rcases hlink hj with hi | ⟨hfresh, -⟩
      · rw [hji, h.links hi hk]
      · exact absurd hk (hfresh k)
    · rw [move_rank_of_ne hji] at hj
      rw [hki, move_rank_self] at hk
      rcases hlink hk with hi | ⟨hfresh, -⟩
      · rw [hki, h.links hi hj]
      · exact absurd hj (hfresh j)
    · rw [move_rank_of_ne hji] at hj
      rw [move_rank_of_ne hki] at hk
      exact h.links hj hk
  entry {l info} hinfo := by
    obtain ⟨r, hof, hrole⟩ := h.entry hinfo
    refine ⟨r, hof, fun j hj => ?_⟩
    by_cases hji : j = i
    · rw [hji, move_rank_self] at hj
      rcases hlink hj with hi | ⟨-, hnone⟩
      · rw [hji, hrole i hi]
      · cases hinfo.symm.trans hnone
    · rw [move_rank_of_ne hji] at hj
      exact hrole j hj
  memory := forall_move (p := fun _ (c : TransClient) => c.RankKept) hmemory fun j _ => h.memory j

theorem Shape.moveStore {store : FaultStore} (hmemory : c.RankKept) (hl : (s.rank i).link = some l)
    (hlink : c.link = (s.rank i).link) (hstep : LinkStep l (G.role i) s.store store) :
    Shape G (s.move i c store) where
  nil := hstep.nil.trans h.nil
  links {j k l'} hj hk := by
    rw [map_move link hlink] at hj hk
    exact h.links hj hk
  entry {l' info} hinfo := by
    have hlinks : ∀ j, ((s.move i c store).rank j).link = (s.rank j).link :=
      map_move link hlink
    rw [move_store] at hinfo ⊢
    by_cases hl' : l' = l
    · subst hl'
      refine ⟨G.role i, hstep.entry hinfo, fun j hj => ?_⟩
      rw [hlinks j] at hj
      rw [h.links hj hl]
    · rw [hstep.other l' hl'] at hinfo
      obtain ⟨r, hof, hrole⟩ := h.entry hinfo
      exact ⟨r, hof.mono hstep.kept, fun j hj => hrole j (hlinks j ▸ hj)⟩
  memory := forall_move (p := fun _ (c : TransClient) => c.RankKept) hmemory fun j _ => h.memory j

theorem Shape.step (hnext : transNext G s (.step i) = some s') : Shape G s' := by
  obtain ⟨l, q, p, hp, rfl⟩ := transNext_step hnext
  obtain ⟨hb, heffect⟩ := hp.effect
  exact h.moveStore ((h.memory i).receive p.2) hp.link (receive_link ..)
    (heffect.linkStep (h.own hp.link) hb)

theorem Shape.cleared (l : ℕ) :
    (s.store.clear l).backend [] = none ∧ (s.store.clear l).handler.linkIdToRankInfoMap =
        update s.store.handler.linkIdToRankInfoMap l none ∧
      ∀ k r, (s.store.backend (TransKey.info k r).key).isSome →
        ((s.store.clear l).backend (TransKey.info k r).key).isSome := by
  cases hlink : s.store.handler.linkIdToRankInfoMap l with
  | none =>
    have hsame := update_eq_self l s.store.handler.linkIdToRankInfoMap
    rw [hlink] at hsame
    rw [clear_of_none hlink, hsame]
    exact ⟨h.nil, rfl, fun _ _ => id⟩
  | some info =>
    obtain ⟨r, hof, -⟩ := h.entry hlink
    obtain ⟨name, hname⟩ := hof.name
    refine ⟨?_, clear_links hlink hof h.nil, fun k r' hsome => ?_⟩
    · rw [clear_backend_other hlink hof h.nil, h.nil]
      · rw [hname]
        exact (TransKey.key_ne_nil _).symm
      · exact fun _ => (TransKey.key_ne_nil _).symm
      · exact fun _ => (TransKey.key_ne_nil _).symm
    · rw [clear_backend_info hlink hof h.nil, isSome_map]
      exact hsome

theorem Shape.clear_queue (l : ℕ) (κ : SlotKind) :
    (s.store.clear l).handler.queue κ = s.store.handler.queue κ ++ s.store.handler.owned l κ := by
  cases hlink : s.store.handler.linkIdToRankInfoMap l with
  | none => rw [clear_of_none hlink, owned_of_none hlink, List.append_nil]
  | some info =>
    obtain ⟨r, hof, -⟩ := h.entry hlink
    rw [Trans.clear_queue hlink hof h.nil, owned_of_some hlink]

theorem Shape.clear_owned (l : ℕ) (κ : SlotKind) :
    (s.store.clear l).handler.owned l κ = [] ∧
      ∀ l', l' ≠ l → (s.store.clear l).handler.owned l' κ = s.store.handler.owned l' κ := by
  have hlinks := (h.cleared l).2.1
  refine ⟨owned_of_none (by rw [hlinks, update_self]), fun l' hl' => ?_⟩
  rw [owned, hlinks, update_of_ne hl', owned]

theorem Shape.clearStore (l : ℕ) : Shape G ⟨s.store.clear l, s.rank⟩ := by
  obtain ⟨hnil, hlinks, hkept⟩ := h.cleared l
  refine ⟨hnil, h.links, fun {l' info} hinfo => ?_, h.memory⟩
  have hne : l' ≠ l := by
    rintro rfl
    rw [hlinks, update_self] at hinfo
    cases hinfo
  rw [hlinks, update_of_ne hne] at hinfo
  obtain ⟨r, hof, hrole⟩ := h.entry hinfo
  exact ⟨r, hof.mono hkept, hrole⟩

theorem shape_next {e : TransEvent n} (hnext : transNext G s e = some s') : Shape G s' := by
  cases e with
  | connect i l =>
    obtain ⟨-, hfresh, hnone, rfl⟩ := transNext_connect hnext
    rw [connected]
    split
    · refine h.moveClient ((h.memory i).congr rfl rfl fun h => by cases h) fun {l'} hl => .inr ?_
      obtain rfl : l = l' := some.inj hl
      exact ⟨hfresh, hnone⟩
    · refine h.moveClient ⟨(fun h => by cases h), .inl rfl⟩ fun {l'} hl => .inr ?_
      obtain rfl : l = l' := some.inj hl
      exact ⟨hfresh, hnone⟩
  | drop i =>
    obtain ⟨-, rfl⟩ := transNext_drop hnext
    refine h.moveClient ((h.memory i).congr ?_ ?_ ?_) fun hl => .inl ?_
    · simp
    · simp
    · simp
    · simpa using hl
  | clear i =>
    obtain ⟨l, hl, -, rfl⟩ := transNext_clear hnext
    have hclear := h.clearStore l
    refine hclear.moveClient ((h.memory i).congr rfl rfl ?_) ?_
    all_goals exact fun h => by cases h
  | expire l =>
    obtain rfl := transNext_expire hnext
    exact h.clearStore l
  | generate i =>
    obtain ⟨-, -, -, -, rfl⟩ := transNext_generate hnext
    exact h.moveClient ⟨fun _ => rfl, .inl rfl⟩ .inl
  | store i k desc =>
    obtain ⟨-, -, -, rfl⟩ := transNext_store hnext
    exact h.moveClient ((h.memory i).congr rfl rfl fun h => by cases h) .inl
  | step i => exact h.step hnext

end

theorem shape_start (G : TransGroup n) : Shape G (transSystem G).start :=
  ⟨rfl, nofun, nofun, fun _ => ⟨nofun, .inl rfl⟩⟩

theorem shape_of_reachable (h : (transSystem G).Reachable s) : Shape G s :=
  h.invariant (shape_start G) fun hs _ hnext => shape_next hs hnext

end Trans
