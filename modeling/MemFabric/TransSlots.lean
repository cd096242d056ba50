/-
Recycled slots are free.

A slot that exists is in one place at most (`Place`): in the queue of its kind, among those a
link owns, or in the hands of a client.  `held` maps places to slots, and `KindInv` says that
this is a valid allocation (`Slots.Valid`), for the slots of one kind.

* `KindInv.keep`, `.pop`, `.settle`, `.claimClient`, `.claimLink`, `.release` — the ways in which
  slots change places.
* `kindInv_of_reachableBy` — they are all there are in runs whose requests are `Regular`; a WRITE
  to a slot that somebody else holds is not.
-/
import MemFabric.TransLinks
import MemFabric.Slots
import MemFabric.Records

namespace Trans

open Option TransClient List FaultHandler Slots FaultStore RankInfo

open ConfigStore

/-! ### Where slots are -/

/-- A slot waits in its queue, belongs to a link or has been handed out to a client that has
not yet registered it. -/
inductive Place (n : ℕ)
  | queue
  | link (linkId : ℕ)
  | client (i : Fin n)

/-- The slot a client of role `r` has been handed out, or has claimed. -/
def TransClient.inFlight (c : TransClient) (r : Role) : SlotKind → List ℕ
  | .rank =>
    match c.pc with
    | .recWrite => [c.rankId]
    | .genSet => [c.rankId]
    | .reSet => [c.rankId]
    | _ => []
  | .record k r' =>
    match c.pc with
    | .storeWrite k' _ slot => if k' = k ∧ r = r' then [slot] else []
    | _ => []

/-- How many slots of this kind there are, for records of the given size. -/
def FaultStore.slots (s : FaultStore) (κ : SlotKind) (size : ℕ) : ℕ :=
  ((s.backend κ.key).getD []).length / size

variable {n : ℕ}

def held (G : TransGroup n) (s : TransState n) (κ : SlotKind) : Place n → List ℕ
  | .queue => s.store.handler.queue κ
  | .link l => s.store.handler.owned l κ
  | .client i => (s.rank i).inFlight (G.role i) κ

/-! ### Requests about other slots -/

/-- The slots of this kind are not touched; some may be given up. -/
structure Untouched (κ : SlotKind) (s s' : FaultStore) : Prop where
  queue : s'.handler.queue κ = s.handler.queue κ
  owned : ∀ l, (s'.handler.owned l κ).Sublist (s.handler.owned l κ)
  value : s'.backend κ.key = s.backend κ.key

variable {G : TransGroup n} {i : Fin n} {c : TransClient} {κ : SlotKind}

theorem TransClient.resume_inFlight (r : Role) (todo : List Stored) (κ : SlotKind) :
    (c.resume todo).inFlight r κ = [] := by
  cases todo <;> cases κ <;> rfl

variable {q : Request}

theorem inFlight_receive (hq : c.request G i = some q) (hκ : q.kind (G.role i) ≠ some κ)
    (o : Outcome) : (c.receive G i o).inFlight (G.role i) κ = [] := by
  have hkind : ∀ q', c.request G i = some q' → q'.kind (G.role i) ≠ some κ := fun q' hq' =>
    some.inj (hq.symm.trans hq') ▸ hκ
  cases κ with
  | rank =>
    fun_cases receive
    all_goals first
      | rfl
      | exact resume_inFlight ..
      | simp [request, Request.kind, *] at hkind
  | record k r =>
    fun_cases receive
    all_goals first
      | rfl
      | exact resume_inFlight ..
      | (refine if_neg fun hkr => ?_
         simp [request, Request.kind, *] at hkind)

theorem SlotKind.key_ne_rank (κ : SlotKind) (name : Bytes) : κ.key ≠ (TransKey.rank name).key := by
  cases κ <;> simp [SlotKind.key]

variable {info : RankInfo} {r : Role}

theorem RankInfo.owned_put_of_ne {k : RecordKind} (hκ : κ ≠ .record k r) (index size : ℕ) :
    ((info.modify k fun i => i.put k index size (TransKey.info k r).key).owned κ).Sublist
      (info.owned κ) := by
  cases κ with
  | rank => simp [owned]
  | record k' r' =>
    by_cases hk : k' = k
    · -- The new slot is one of another role.
      have hkey : (TransKey.info k r).key ≠ (TransKey.info k' r').key := by
        rw [Ne, TransKey.key_inj, TransKey.info.injEq]
        rintro ⟨rfl, rfl⟩
        exact hκ rfl
      rw [owned, record_modify, if_pos hk, (RecordInfo.put_frame ..).1, if_neg hkey]
      exact nil_sublist _
    · rw [owned, record_modify_of_ne hk, owned]

theorem RankInfo.owned_put {b : Backend} {k : RecordKind} (hof : info.Of b r) (index size : ℕ) :
    ((info.modify k fun i => i.put k index size (TransKey.info k r).key).owned
      (.record k r)).Sublist (info.owned (.record k r) ++ [index]) := by
  rw [owned, record_modify_self, (RecordInfo.put_frame ..).1, if_pos rfl]
  cases k with
  | device => exact sublist_append_right ..
  | slice =>
    show ((info.record .slice).infoId ++ [index]).Sublist _
    rcases hof.infoKey .slice with ⟨-, hids⟩ | hkey
    · rw [hids rfl]
      exact sublist_append_right ..
    · rw [owned, if_pos hkey]

theorem RankInfo.owned_count (k : RecordKind) (key : Key) :
    (info.modify k fun i => { i with countKey := key }).owned κ = info.owned κ := by
  cases κ with
  | rank => simp [owned]
  | record k' r' =>
    rw [owned, owned, record_modify]
    split
    next hk =>
      subst hk
      rfl
    next => rfl

section Untouched

variable {s s' : FaultStore} {linkId : ℕ}

theorem Untouched.of_handler (hqueue : s'.handler.queue κ = s.handler.queue κ)
    (hlinks : s'.handler.linkIdToRankInfoMap = s.handler.linkIdToRankInfoMap)
    (hvalue : s'.backend κ.key = s.backend κ.key) : Untouched κ s s' where
  queue := hqueue
  owned l := by
    rw [FaultHandler.owned, FaultHandler.owned, hlinks]
  value := hvalue

theorem Untouched.of_setLink (hhand : s'.handler = s.handler.setLink linkId (some info))
    (howned : (info.owned κ).Sublist (s.handler.owned linkId κ))
    (hvalue : s'.backend κ.key = s.backend κ.key) : Untouched κ s s' where
  queue := by rw [hhand, queue_setLink]
  owned l := by
    rw [hhand]
    by_cases hl : l = linkId
    · subst hl
      rwa [owned_setLink_self]
    · rw [owned_setLink_of_ne hl]
  value := hvalue

theorem Request.target_ne {name : Bytes} (hκ : q.kind r ≠ some κ) :
    κ.key ≠ (q.target name r).key := by
  cases q <;> cases κ <;> simp_all [Request.target, Request.kind, SlotKind.key] <;>
    exact fun hk hr => hκ hk.symm hr.symm

theorem Effect.untouched {name : Bytes} (h : Effect linkId name r s s' q)
    (hb : WrittenAt (q.target name r) s s') (hκ : q.kind r ≠ some κ) : Untouched κ s s' := by
  have hvalue : s'.backend κ.key = s.backend κ.key := hb.of_ne (Request.target_ne hκ)
  cases h with
  | queues hlinks hqueue => exact .of_handler (hqueue κ hκ) hlinks hvalue
  | registered hhand =>
    refine .of_setLink hhand ?_ hvalue
    cases κ with
    | rank => exact absurd rfl hκ
    | record k r' =>
      rw [RankInfo.owned, RankInfo.new_infoKey, if_neg (TransKey.key_ne_nil _).symm]
      exact nil_sublist _
  | put index size hkind hlink hhand hkey =>
    refine .of_setLink hhand ?_ hvalue
    rw [owned_of_some hlink]
    exact owned_put_of_ne (fun h => hκ (hkind.trans (congrArg some h.symm))) ..
  | counted hlink hhand =>
    refine .of_setLink hhand ?_ hvalue
    rw [owned_of_some hlink, owned_count]

end Untouched

/-! ### The invariant -/

/-- The list of this kind consists of entries of one size, no more than there are slot numbers. -/
structure Aligned (κ : SlotKind) (size : ℕ) (s : FaultStore) : Prop where
  dvd : size ∣ ((s.backend κ.key).getD []).length
  le : s.slots κ size ≤ 2 ^ 16

structure KindInv (G : TransGroup n) (κ : SlotKind) (size : ℕ) (s : TransState n) : Prop where
  aligned : Aligned κ size s.store
  valid : Slots.Valid (held G s κ) (s.store.slots κ size)

variable {size : ℕ}

theorem Aligned.congr {s s' : FaultStore} (h : Aligned κ size s)
    (hvalue : ((s'.backend κ.key).getD []).length = ((s.backend κ.key).getD []).length) :
    Aligned κ size s' ∧ s.slots κ size ≤ s'.slots κ size := by
  have hslots : s'.slots κ size = s.slots κ size := by
    rw [slots, hvalue, slots]
  exact ⟨⟨hvalue ▸ h.dvd, hslots ▸ h.le⟩, hslots.ge⟩

variable {x : ℕ}

section Rules

variable {size : ℕ} {s : TransState n} {store : FaultStore}

theorem held_move_self : held G (s.move i c store) κ (.client i) = c.inFlight (G.role i) κ := by
  rw [held, SharedState.move_rank_self]

theorem held_move_of_ne {j : Fin n} (hj : j ≠ i) :
    held G (s.move i c store) κ (.client j) = held G s κ (.client j) := by
  rw [held, SharedState.move_rank_of_ne hj, held]

variable (h : KindInv G κ size s)
  (halign : Aligned κ size store ∧ s.store.slots κ size ≤ store.slots κ size)
include h halign

theorem KindInv.keep (hqueue : (store.handler.queue κ).Sublist (s.store.handler.queue κ))
    (howned : ∀ l, (store.handler.owned l κ).Sublist (s.store.handler.owned l κ))
    (hflight : (c.inFlight (G.role i) κ).Sublist ((s.rank i).inFlight (G.role i) κ)) :
    KindInv G κ size (s.move i c store) := by
  refine ⟨halign.1, h.valid.sublist (fun p => ?_) halign.2⟩
  rcases p with _ | l | j
  · exact hqueue
  · exact howned l
  by_cases hj : j = i
  · subst hj
    rw [held_move_self]
    exact hflight
  · rw [held_move_of_ne hj]

theorem KindInv.pop {rest : List ℕ} (hqueue : s.store.handler.queue κ = x :: rest)
    (hqueue' : store.handler.queue κ = rest)
    (howned : ∀ l, (store.handler.owned l κ).Sublist (s.store.handler.owned l κ))
    (hflight : c.inFlight (G.role i) κ = [x]) : KindInv G κ size (s.move i c store) := by
  refine ⟨halign.1, h.valid.transfer (p := .queue) (q := .client i) nofun [x] hqueue ?_ ?_
    (fun p hp hpi => ?_) halign.2⟩
  · exact sublist_of_eq hqueue'
  · rw [held_move_self, hflight]
    exact sublist_append_right ..
  rcases p with _ | l | j
  · exact absurd rfl hp
  · exact howned l
  · rw [held_move_of_ne fun hj => hpi (congrArg _ hj)]

theorem KindInv.settle {x l : ℕ} (hflight : (s.rank i).inFlight (G.role i) κ = [x])
    (hflight' : c.inFlight (G.role i) κ = [])
    (hqueue : store.handler.queue κ = s.store.handler.queue κ)
    (hself : (store.handler.owned l κ).Sublist (s.store.handler.owned l κ ++ [x]))
    (hother : ∀ l', l' ≠ l → store.handler.owned l' κ = s.store.handler.owned l' κ) :
    KindInv G κ size (s.move i c store) := by
  refine ⟨halign.1, h.valid.transfer (p := .client i) (q := .link l) nofun [x]
    hflight ?_ hself (fun p hp hpl => ?_) halign.2⟩
  · rw [held_move_self, hflight']
  rcases p with _ | l' | j
  · exact sublist_of_eq hqueue
  · exact sublist_of_eq (hother l' fun hl => hpl (congrArg _ hl))
  · rw [held_move_of_ne fun hj => hp (congrArg _ hj)]

theorem KindInv.claimClient (hx : Slots.Free (held G s κ) (store.slots κ size) x)
    (hqueue : store.handler.queue κ = s.store.handler.queue κ)
    (howned : ∀ l, store.handler.owned l κ = s.store.handler.owned l κ)
    (hflight : c.inFlight (G.role i) κ = [x]) : KindInv G κ size (s.move i c store) := by
  refine ⟨halign.1, h.valid.claim (p := .client i) hx ?_ (fun p hp => ?_) halign.2⟩
  · rw [held_move_self, hflight]
    exact sublist_append_right ..
  rcases p with _ | l | j
  · exact sublist_of_eq hqueue
  · exact sublist_of_eq (howned l)
  · rw [held_move_of_ne fun hj => hp (congrArg _ hj)]

theorem KindInv.claimLink {x l : ℕ} (hx : Slots.Free (held G s κ) (store.slots κ size) x)
    (hqueue : store.handler.queue κ = s.store.handler.queue κ)
    (hself : (store.handler.owned l κ).Sublist (s.store.handler.owned l κ ++ [x]))
    (hother : ∀ l', l' ≠ l → store.handler.owned l' κ = s.store.handler.owned l' κ)
    (hflight : (c.inFlight (G.role i) κ).Sublist ((s.rank i).inFlight (G.role i) κ)) :
    KindInv G κ size (s.move i c store) := by
  refine ⟨halign.1, h.valid.claim (p := .link l) hx hself (fun p hp => ?_) halign.2⟩
  rcases p with _ | l' | j
  · exact sublist_of_eq hqueue
  · exact sublist_of_eq (hother l' fun hl => hp (congrArg _ hl))
  by_cases hj : j = i
  · subst hj
    rw [held_move_self]
    exact hflight
  · rw [held_move_of_ne hj]

theorem KindInv.release {l : ℕ}
    (hqueue : store.handler.queue κ = s.store.handler.queue κ ++ s.store.handler.owned l κ)
    (hself : store.handler.owned l κ = [])
    (hother : ∀ l', l' ≠ l → store.handler.owned l' κ = s.store.handler.owned l' κ) :
    KindInv G κ size ⟨store, s.rank⟩ := by
  refine ⟨halign.1, h.valid.transfer (p := .link l) (q := .queue) nofun
    (s.store.handler.owned l κ) (append_nil _).symm ?_ ?_
    (fun p hp hpq => ?_) halign.2⟩
  · exact sublist_of_eq hself
  · exact sublist_of_eq hqueue
  rcases p with _ | l' | j
  · exact absurd rfl hpq
  · exact sublist_of_eq (hother l' fun hl => hp (congrArg _ hl))
  · exact Sublist.refl _

end Rules

/-! ### Sizes -/

variable {slot : ℕ}

section Sizes

variable {size : ℕ} {s t : FaultStore} {value : Bytes}

theorem lastIndex_append {len : ℕ} (hsize : 0 < size) (hroom : len / size < 2 ^ 16) :
    lastIndex (len + size) size = len / size := by
  rw [lastIndex, Nat.add_div_right _ hsize]
  generalize len / size = q at hroom ⊢
  omega

theorem Aligned.grown (h : Aligned κ size s) (hsize : 0 < size) (hroom : s.slots κ size < 2 ^ 16)
    (hvalue : value.length = size)
    (hgrown : t.backend κ.key = some ((s.backend κ.key).getD [] ++ value)) :
    Aligned κ size t ∧ t.slots κ size = s.slots κ size + 1 := by
  have hlen : ((t.backend κ.key).getD []).length = ((s.backend κ.key).getD []).length + size := by
    rw [hgrown, getD_some, length_append, hvalue]
  have hslots : t.slots κ size = s.slots κ size + 1 := by
    rw [slots, hlen, Nat.add_div_right _ hsize, slots]
  refine ⟨⟨?_, ?_⟩, hslots⟩
  · rw [hlen]
    exact (Nat.dvd_add_right h.dvd).mpr (dvd_refl size)
  · omega

theorem FaultStore.exists_of_lt_slots (hslot : slot < s.slots κ size) :
    ∃ old, s.backend κ.key = some old ∧ slot * size + size ≤ old.length := by
  have hle := Records.mul_add_le hslot
  cases hold : s.backend κ.key with
  | none =>
    rw [slots, hold] at hslot
    simp at hslot
  | some old =>
    rw [hold] at hle
    exact ⟨old, rfl, hle⟩

theorem overlay_eq_patch {old data : Bytes} {offset : ℕ} (h : offset + data.length ≤ old.length) :
    overlay old offset data = Records.patch old offset data := by
  have hzero : offset + data.length - old.length = 0 := Nat.sub_eq_zero_of_le h
  simp only [overlay, hzero, replicate_zero, append_nil, Records.patch]

theorem Aligned.written (h : Aligned κ size s) (hslot : slot < s.slots κ size)
    (hvalue : value.length = size) {old : Bytes} (hold : s.backend κ.key = some old)
    (hwritten : t.backend κ.key = some (overlay old (slot * value.length) value)) :
    Aligned κ size t ∧ s.slots κ size ≤ t.slots κ size := by
  obtain ⟨old', hold', hle⟩ := exists_of_lt_slots hslot
  obtain rfl : old = old' := some.inj (hold.symm.trans hold')
  rw [← hvalue] at hle
  refine h.congr ?_
  rw [hwritten, hold, getD_some, getD_some, overlay_eq_patch hle, Records.length_patch hle]

end Sizes

/-! ### Requests about rank ids -/

theorem inFlight_receive_got {reply : GetReply} (hreply : ∀ value, reply ≠ .restore value) :
    (c.receive G i (.got reply)).inFlight (G.role i) κ = [] := by
  cases reply with
  | restore value => exact absurd rfl (hreply value)
  | notExist =>
    rw [receive]
    split <;> cases κ <;> rfl
  | success value =>
    rw [receive]
    split
    · split <;> cases κ <;> rfl
    · cases κ <;> rfl
    · split
      · exact resume_inFlight ..
      · cases κ <;> rfl
    · cases κ <;> rfl

/-- What a client may ask for: appending needs room, all records have one size, and a slot that
is written has been handed out to the client or is free. -/
def RequestOk (G : TransGroup n) (κ : SlotKind) (size : ℕ) (s : TransState n) (i : Fin n) :
    Request → Prop
  | .appendRanks _ => s.store.slots κ size < 2 ^ 16
  | .writeRanks slot _ => slot ∈ (s.rank i).inFlight (G.role i) κ ∨
      Slots.Free (held G s κ) (s.store.slots κ size) slot
  | .appendRecord _ rec => rec.bytes.length = size ∧ s.store.slots κ size < 2 ^ 16
  | .writeRecord _ slot rec => rec.bytes.length = size ∧ (slot ∈ (s.rank i).inFlight (G.role i) κ ∨
        Slots.Free (held G s κ) (s.store.slots κ size) slot)
  | _ => True

/-- The requests about slots of one kind are as they may be. -/
def Regular (G : TransGroup n) (κ : SlotKind) (size : ℕ) (s : TransState n) :
    TransEvent n → Prop
  | .step i => ∀ q, (s.rank i).request G i = some q → q.kind (G.role i) = some κ →
      RequestOk G κ size s i q
  | _ => True

section RankRequests

variable {s : TransState n} {l : ℕ} {p : FaultStore × Outcome}

theorem KindInv.lt (h : KindInv G κ size s) {place : Place n} (hx : x ∈ held G s κ place) :
    x < 2 ^ 16 :=
  lt_of_lt_of_le (h.valid.lt hx) h.aligned.le

theorem KindInv.leValue (h : KindInv G κ size s) {place : Place n} (hx : x ∈ held G s κ place) :
    Bytes.leValue (Bytes.le 2 x) = x :=
  Bytes.leValue_le_of_lt (lt_of_lt_of_eq (h.lt hx) (by norm_num))

section

variable (h : KindInv G .rank 24 s)
include h

theorem KindInv.getRank (hp : Performed G s i l .getRank p) :
    KindInv G .rank 24 (s.move i ((s.rank i).receive G i p.2) p.1) := by
  rw [← some.inj hp.result]
  rcases get_rank_cases (G.name_plain i) with
    ⟨reply, hget, hreply⟩ | ⟨id, rest, hqueue, hget⟩
  · rw [hget]
    refine h.keep (h.aligned.congr rfl) (Sublist.refl _) (fun _ => Sublist.refl _) ?_
    exact (inFlight_receive_got hreply).symm ▸ nil_sublist _
  rw [hget]
  have hid : id ∈ held G s .rank .queue := by
    rw [held, queue, hqueue]
    exact mem_cons_self
  rcases at_of_request hp.request with hpc | hpc
  · refine h.pop (h.aligned.congr rfl) hqueue rfl (fun _ => Sublist.refl _) ?_
    simp only [Prod.map_snd, receive, hpc, inFlight, h.leValue hid]
  -- The id is lost.
  refine h.keep (h.aligned.congr rfl) ?_ (fun _ => Sublist.refl _) ?_
  · exact (congrArg _ hqueue).mpr (sublist_cons_self ..)
  · simp only [Prod.map_snd, receive, hpc, fail, inFlight]
    exact nil_sublist _

theorem KindInv.setRank {rankId : ℕ} (hp : Performed G s i l (.setRank rankId) p) :
    KindInv G .rank 24 (s.move i ((s.rank i).receive G i p.2) p.1) := by
  obtain ⟨-, hq, hp⟩ := hp
  obtain ⟨hpc, rfl⟩ := at_of_request hq
  have hflight : (s.rank i).inFlight (G.role i) .rank = [(s.rank i).rankId] := by
    rcases hpc with hpc | hpc <;> simp only [inFlight, hpc]
  have hid : (s.rank i).rankId ∈ held G s .rank (.client i) := by
    rw [held, hflight]
    exact mem_singleton_self _
  simp only [perform, set_rank, Prod.map_apply, id, some.injEq] at hp
  subst hp
  refine h.settle (l := l) (h.aligned.congr ?_) hflight ?_ ?_ ?_ fun l' hl' => ?_
  · dsimp only
    rw [Function.update_of_ne (SlotKind.key_ne_rank _ _)]
  · rcases hpc with hpc | hpc
    · simp only [receive, hpc, generated, inFlight]
    · simp only [receive, hpc]
      exact resume_inFlight ..
  · exact queue_setLink ..
  · rw [owned_setLink_self, RankInfo.owned, RankInfo.new, Nat.mod_eq_of_lt (h.lt hid)]
    exact sublist_append_right ..
  · exact owned_setLink_of_ne hl' _

theorem KindInv.appendRanks {cfg : Bytes} (hok : RequestOk G .rank 24 s i (.appendRanks cfg))
    (hp : Performed G s i l (.appendRanks cfg) p) :
    KindInv G .rank 24 (s.move i ((s.rank i).receive G i p.2) p.1) := by
  obtain ⟨-, hq, hp⟩ := hp
  obtain ⟨hpc, rfl⟩ := at_of_request hq
  simp only [perform, append_ranksInfo (G.cfg_ne_nil i), map_some,
    Prod.map_apply, id, some.injEq] at hp
  subst hp
  have hgrown : s.store.grown TransKey.ranksInfo.key (G.cfg i) SlotKind.rank.key =
      some ((s.store.backend SlotKind.rank.key).getD [] ++ G.cfg i) := Function.update_self ..
  obtain ⟨halign, hslots⟩ := h.aligned.grown
    (t := ⟨s.store.grown TransKey.ranksInfo.key (G.cfg i), s.store.handler⟩) (by norm_num) hok
    (G.cfg_length i) hgrown
  refine h.claimClient (x := s.store.slots .rank 24) ⟨halign, hslots.symm ▸ Nat.le_succ _⟩ ?_ rfl
    (fun _ => rfl) ?_
  · exact hslots.symm ▸ h.valid.free_next
  have hindex : lastIndex (((s.store.backend TransKey.ranksInfo.key).getD []).length + 24) 24 =
      s.store.slots .rank 24 := lastIndex_append (by norm_num) hok
  simp only [receive, hpc, claim, inFlight, G.cfg_length, hindex]

theorem KindInv.writeRanks (hshape : Shape G s) {cfg : Bytes}
    (hok : RequestOk G .rank 24 s i (.writeRanks slot cfg))
    (hp : Performed G s i l (.writeRanks slot cfg) p) :
    KindInv G .rank 24 (s.move i ((s.rank i).receive G i p.2) p.1) := by
  obtain ⟨-, hq, hp⟩ := hp
  have hslot : slot < s.store.slots .rank 24 := by
    rcases hok with hflight | hfree
    · exact h.valid.lt (p := .client i) hflight
    · exact hfree.1
  have hslot16 : slot < 2 ^ 16 := lt_of_lt_of_le hslot h.aligned.le
  obtain ⟨old, hold, -⟩ := exists_of_lt_slots hslot
  -- The configuration is that of the id: in `RecoverRankInformation` it is the client's own, in
  -- `ReRegisterToServer` it has been kept.
  have hwhere := at_of_request hq
  have hcfg : cfg.length = 24 := by
    rcases hwhere with ⟨-, -, rfl⟩ | ⟨-, hkept⟩
    · exact G.cfg_length i
    rcases (hshape.memory i).kept with hnil | ⟨-, hlen⟩
    · obtain rfl : cfg = [] := by rwa [hkept] at hnil
      rw [perform, length_nil, Nat.mul_zero, write_nil] at hp
      cases hp
    · rwa [hkept] at hlen
  have hne : cfg ≠ [] := ne_nil_of_length_pos (by rw [hcfg]; norm_num)
  have hsize : cfg.length < 2 ^ 16 := by rw [hcfg]; norm_num
  simp only [perform, write_ranksInfo hold hne hsize hslot16,
    map_some, Prod.map_apply, id, some.injEq] at hp
  subst hp
  have halign := h.aligned.written (t := ⟨Function.update s.store.backend
    TransKey.ranksInfo.key (some (overlay old (slot * cfg.length) cfg)), s.store.handler⟩) hslot
    hcfg hold (by simp [SlotKind.key])
  rcases hwhere with ⟨hpc, rfl, -⟩ | ⟨hpc, hkept⟩
  · refine h.keep halign (Sublist.refl _) (fun _ => Sublist.refl _) ?_
    simp only [receive, hpc, claim, inFlight]
    exact Sublist.refl _
  -- The id has not been handed out to the client, so it is free.
  have hnone : (s.rank i).inFlight (G.role i) .rank = [] := by
    simp only [inFlight, hpc]
  have hfree : Slots.Free (held G s .rank) (s.store.slots .rank 24) slot := by
    rcases hok with hflight | hfree
    · rw [hnone] at hflight
      cases hflight
    · exact hfree
  have hid : (s.rank i).rankId = slot := by
    rcases (hshape.memory i).kept with hnil | ⟨hid, -⟩
    · rw [hkept] at hnil
      exact absurd hnil hne
    · rw [← hid, hkept]
  refine h.claimClient halign ⟨lt_of_lt_of_le hfree.1 halign.2, hfree.2⟩ rfl (fun _ => rfl) ?_
  simp only [receive, hpc, goto, inFlight, hid]

end

end RankRequests

/-! ### Requests about records -/

section RecordRequests

variable {s : TransState n} {l size : ℕ} {k : RecordKind} {p : FaultStore × Outcome}

theorem KindInv.getSlot (h : KindInv G (.record k (G.role i)) size s)
    (hp : Performed G s i l (.getSlot k) p) :
    KindInv G (.record k (G.role i)) size (s.move i ((s.rank i).receive G i p.2) p.1) := by
  rw [← some.inj hp.result]
  rcases get_id_cases k (G.role i) with
    ⟨reply, hget, hreply⟩ | ⟨id, rest, hqueue, hget⟩
  · rw [hget]
    refine h.keep (h.aligned.congr rfl) (Sublist.refl _) (fun _ => Sublist.refl _) ?_
    exact (inFlight_receive_got hreply).symm ▸ nil_sublist _
  rw [hget]
  have hid : id ∈ held G s (.record k (G.role i)) .queue := by
    rw [held, queue, hqueue]
    exact mem_cons_self
  obtain ⟨rec, hpc⟩ := at_of_request hp.request
  refine h.pop (h.aligned.congr rfl) hqueue ?_ (fun _ => Sublist.refl _) ?_
  · exact (queue_setIdQueue ..).trans (if_pos rfl)
  · simp only [Prod.map_snd, receive, hpc, goto, inFlight, h.leValue hid, and_self, if_true]

theorem put_queue_owned {store : FaultStore} {b : Backend} (index size : ℕ)
    (hinfo : store.handler.linkIdToRankInfoMap l = some info) (hof : info.Of b r) :
    let h := store.handler.setLink l (some (info.modify k fun i =>
      i.put k index size (TransKey.info k r).key))
    h.queue (.record k r) = store.handler.queue (.record k r) ∧
      (h.owned l (.record k r)).Sublist (store.handler.owned l (.record k r) ++ [index]) ∧
      ∀ l', l' ≠ l → h.owned l' (.record k r) = store.handler.owned l' (.record k r) := by
  refine ⟨queue_setLink .., ?_, fun l' hl' => owned_setLink_of_ne hl' _⟩
  rw [owned_setLink_self, owned_of_some hinfo]
  exact owned_put hof ..

theorem KindInv.appendRecord (h : KindInv G (.record k (G.role i)) size s) (hshape : Shape G s)
    {rec : Record} (hok : RequestOk G (.record k (G.role i)) size s i (.appendRecord k rec))
    (hp : Performed G s i l (.appendRecord k rec) p) :
    KindInv G (.record k (G.role i)) size (s.move i ((s.rank i).receive G i p.2) p.1) := by
  obtain ⟨hl, hq, hp⟩ := hp
  have hpc : (s.rank i).pc = .storeAppend k rec := at_of_request hq
  obtain ⟨hlen, hroom⟩ := hok
  have hsize : 0 < size := hlen ▸ length_pos_iff.mpr rec.bytes_ne_nil
  have hgrown : s.store.grown (TransKey.info k (G.role i)).key rec.bytes
      (SlotKind.record k (G.role i)).key =
      some ((s.store.backend (SlotKind.record k (G.role i)).key).getD [] ++ rec.bytes) :=
    Function.update_self ..
  cases hinfo : s.store.handler.linkIdToRankInfoMap l with
  | none =>
    -- Refused, but the list has grown.
    simp only [perform, append_info rec.bytes_ne_nil, hinfo, map_some,
      Prod.map_apply, id, some.injEq] at hp
    subst hp
    obtain ⟨halign, hslots⟩ := h.aligned.grown (t := ⟨s.store.grown
      (TransKey.info k (G.role i)).key rec.bytes, s.store.handler⟩) hsize hroom hlen hgrown
    refine h.keep ⟨halign, hslots.symm ▸ Nat.le_succ _⟩ (Sublist.refl _)
      (fun _ => Sublist.refl _) ?_
    simp only [receive, hpc, fail, inFlight]
    exact Sublist.refl _
  | some info =>
    simp only [perform, append_info rec.bytes_ne_nil, hinfo, map_some,
      Prod.map_apply, id, some.injEq] at hp
    subst hp
    obtain ⟨hqueue, hself, hother⟩ := put_queue_owned (k := k)
      (s.store.nextSlot (TransKey.info k (G.role i)).key rec.bytes.length) rec.bytes.length hinfo
      (hshape.own hl hinfo)
    obtain ⟨halign, hslots⟩ := h.aligned.grown (t := ⟨s.store.grown
      (TransKey.info k (G.role i)).key rec.bytes, s.store.handler⟩) hsize hroom hlen hgrown
    have hindex : s.store.nextSlot (TransKey.info k (G.role i)).key rec.bytes.length =
        s.store.slots (.record k (G.role i)) size := by
      rw [nextSlot, hlen]
      exact lastIndex_append hsize hroom
    refine h.claimLink ⟨⟨halign.dvd, halign.le⟩, hslots.symm ▸ Nat.le_succ _⟩
      (x := s.store.slots (.record k (G.role i)) size) ?_ hqueue (hindex ▸ hself) hother ?_
    · exact hslots.symm ▸ h.valid.free_next
    · simp only [receive, hpc, goto, inFlight]
      exact Sublist.refl _

theorem KindInv.writeRecord (h : KindInv G (.record k (G.role i)) size s) (hshape : Shape G s)
    (hsize : size < 2 ^ 16) {rec : Record}
    (hok : RequestOk G (.record k (G.role i)) size s i (.writeRecord k slot rec))
    (hp : Performed G s i l (.writeRecord k slot rec) p) :
    KindInv G (.record k (G.role i)) size (s.move i ((s.rank i).receive G i p.2) p.1) := by
  obtain ⟨hl, hq, hp⟩ := hp
  obtain ⟨hlen, hslotok⟩ := hok
  have hslot : slot < s.store.slots (.record k (G.role i)) size := by
    rcases hslotok with hflight | hfree
    · exact h.valid.lt (p := .client i) hflight
    · exact hfree.1
  have hslot16 : slot < 2 ^ 16 := lt_of_lt_of_le hslot h.aligned.le
  obtain ⟨old, hold, -⟩ := exists_of_lt_slots hslot
  have hwhere := at_of_request hq
  have hafter : ∀ accepted, ((s.rank i).receive G i (.done accepted)).inFlight (G.role i)
      (.record k (G.role i)) = [] := by
    intro accepted
    cases accepted with
    | false => rfl
    | true => rcases hwhere with hpc | ⟨todo, hpc⟩ <;> simp only [receive, hpc] <;> rfl
  have hinfoKey : s.store.backend (TransKey.info k (G.role i)).key = some old := hold
  have hbytes : rec.bytes.length < 2 ^ 16 := hlen ▸ hsize
  cases hinfo : s.store.handler.linkIdToRankInfoMap l with
  | none =>
    simp only [perform, write_info hinfoKey rec.bytes_ne_nil hbytes hslot16,
      hinfo, map_some, Prod.map_apply, id, some.injEq] at hp
    subst hp
    exact h.keep (h.aligned.congr rfl) (Sublist.refl _) (fun _ => Sublist.refl _)
      (hafter false ▸ nil_sublist _)
  | some info =>
    simp only [perform, write_info hinfoKey rec.bytes_ne_nil hbytes hslot16,
      hinfo, map_some, Prod.map_apply, id, some.injEq] at hp
    subst hp
    obtain ⟨hqueue, hself, hother⟩ := put_queue_owned (k := k) slot rec.bytes.length hinfo
      (hshape.own hl hinfo)
    have halign : ∀ handler, Aligned (.record k (G.role i)) size
        ⟨Function.update s.store.backend (TransKey.info k (G.role i)).key
          (some (overlay old (slot * rec.bytes.length) rec.bytes)), handler⟩ ∧ _ ≤ _ :=
      fun handler => h.aligned.written hslot hlen hold (by simp [SlotKind.key])
    rcases hwhere with hpc | ⟨todo, hpc⟩
    · have hflight : (s.rank i).inFlight (G.role i) (.record k (G.role i)) = [slot] := by
        simp only [inFlight, hpc, and_self, if_true]
      exact h.settle (halign _) hflight (hafter true) hqueue hself hother
    -- The slot has not been handed out to the client, so it is free.
    have hnone : (s.rank i).inFlight (G.role i) (.record k (G.role i)) = [] := by
      simp only [inFlight, hpc]
    have hfree : Slots.Free (held G s (.record k (G.role i)))
        (s.store.slots (.record k (G.role i)) size) slot := by
      rcases hslotok with hflight | hfree
      · rw [hnone] at hflight
        cases hflight
      · exact hfree
    exact h.claimLink (halign _) ⟨lt_of_lt_of_le hfree.1 (halign _).2, hfree.2⟩ hqueue hself
      hother (hafter true ▸ nil_sublist _)

end RecordRequests

/-! ### Steps -/

section Steps

variable {s s' : TransState n} {size : ℕ}

/-- A configuration has 24 bytes, and no record has 2¹⁶ or more. -/
def SizeOk : SlotKind → ℕ → Prop
  | .rank, size => size = 24
  | .record _ _, size => size < 2 ^ 16

theorem KindInv.step (h : KindInv G κ size s) (hshape : Shape G s) (hsize : SizeOk κ size)
    (hok : Regular G κ size s (.step i)) (hnext : transNext G s (.step i) = some s') :
    KindInv G κ size s' := by
  obtain ⟨l, q, p, hp, rfl⟩ := transNext_step hnext
  by_cases hkind : q.kind (G.role i) = some κ
  · have hreq := hok q hp.request hkind
    cases q with
    | getRank =>
      cases hkind
      obtain rfl : size = 24 := hsize
      exact h.getRank hp
    | setRank =>
      cases hkind
      obtain rfl : size = 24 := hsize
      exact h.setRank hp
    | appendRanks =>
      cases hkind
      obtain rfl : size = 24 := hsize
      exact h.appendRanks hreq hp
    | writeRanks =>
      cases hkind
      obtain rfl : size = 24 := hsize
      exact h.writeRanks hshape hreq hp
    | getSlot =>
      cases hkind
      exact h.getSlot hp
    | appendRecord =>
      cases hkind
      exact h.appendRecord hshape hreq hp
    | writeRecord =>
      cases hkind
      exact h.writeRecord hshape hsize hreq hp
    | addCount => cases hkind
  obtain ⟨hb, heffect⟩ := hp.effect
  have hsame := heffect.untouched hb hkind
  refine h.keep (h.aligned.congr (by rw [hsame.value])) (sublist_of_eq hsame.queue) hsame.owned ?_
  rw [inFlight_receive hp.request hkind]
  exact nil_sublist _

theorem KindInv.clearStore (h : KindInv G κ size s) (hshape : Shape G s) (l : ℕ) :
    KindInv G κ size ⟨s.store.clear l, s.rank⟩ := by
  have hlength : (((s.store.clear l).backend κ.key).getD []).length =
      ((s.store.backend κ.key).getD []).length := by
    cases hlink : s.store.handler.linkIdToRankInfoMap l with
    | none => rw [clear_of_none hlink]
    | some info =>
      obtain ⟨r, hof, -⟩ := hshape.entry hlink
      cases κ with
      | rank =>
        obtain ⟨name, hname⟩ := hof.name
        rw [clear_backend_other hlink hof hshape.nil (by simp [hname, SlotKind.key])
          (by simp [SlotKind.key]) (by simp [SlotKind.key])]
      | record k r' =>
        rw [SlotKind.key, clear_backend_info hlink hof hshape.nil]
        cases s.store.backend (TransKey.info k r').key with
        | none => rfl
        | some value =>
          rw [map_some, getD_some, getD_some, markAbnormal_length]
  exact h.release (l := l) (h.aligned.congr hlength) (hshape.clear_queue l κ)
    (hshape.clear_owned l κ).1 (hshape.clear_owned l κ).2

theorem inFlight_dropped (r : Role) : c.dropped.inFlight r κ = c.inFlight r κ := by
  cases κ <;> simp [inFlight]

theorem kindInv_next {e : TransEvent n} (h : KindInv G κ size s) (hshape : Shape G s)
    (hsize : SizeOk κ size) (hok : Regular G κ size s e) (hnext : transNext G s e = some s') :
    KindInv G κ size s' := by
  -- Where the store stays and the client has nothing in its hands afterwards.
  have hmove : ∀ {i : Fin n} {c : TransClient}, (c.inFlight (G.role i) κ).Sublist
      ((s.rank i).inFlight (G.role i) κ) → KindInv G κ size (s.move i c s.store) := fun hflight =>
    h.keep (h.aligned.congr rfl) (Sublist.refl _) (fun _ => Sublist.refl _) hflight
  have hnone : ∀ {i : Fin n} {c : TransClient}, c.inFlight (G.role i) κ = [] →
      KindInv G κ size (s.move i c s.store) := fun hflight =>
    hmove (hflight ▸ nil_sublist _)
  cases e with
  | connect i l =>
    obtain ⟨-, -, -, rfl⟩ := transNext_connect hnext
    refine hnone ?_
    rw [connected]
    split <;> cases κ <;> rfl
  | drop i =>
    obtain ⟨-, rfl⟩ := transNext_drop hnext
    exact hmove (sublist_of_eq (inFlight_dropped _))
  | clear i =>
    obtain ⟨l, -, -, rfl⟩ := transNext_clear hnext
    have hclear := h.clearStore hshape l
    refine hclear.keep (hclear.aligned.congr rfl) (Sublist.refl _) (fun _ => Sublist.refl _) ?_
    cases κ <;> exact nil_sublist _
  | expire l =>
    obtain rfl := transNext_expire hnext
    exact h.clearStore hshape l
  | generate i =>
    obtain ⟨-, -, -, -, rfl⟩ := transNext_generate hnext
    exact hnone (by cases κ <;> rfl)
  | store i k desc =>
    obtain ⟨-, -, -, rfl⟩ := transNext_store hnext
    exact hnone (by cases κ <;> rfl)
  | step i => exact h.step hshape hsize hok hnext

theorem kindInv_start (G : TransGroup n) (κ : SlotKind) (size : ℕ) :
    KindInv G κ size (transSystem G).start := by
  have hslots : (transSystem G).start.store.slots κ size = 0 := Nat.zero_div size
  refine ⟨⟨dvd_zero _, hslots ▸ Nat.zero_le _⟩, (Slots.Valid.nil _).sublist (fun p => ?_) le_rfl⟩
  cases p <;> cases κ <;> exact Sublist.refl _

theorem kindInv_of_reachableBy {ok : TransState n → TransEvent n → Prop} (hsize : SizeOk κ size)
    (hok : ∀ s e, ok s e → Regular G κ size s e) (h : (transSystem G).ReachableBy ok s) :
    KindInv G κ size s := by
  have hboth : Shape G s ∧ KindInv G κ size s :=
    h.invariant (I := fun s => Shape G s ∧ KindInv G κ size s)
      ⟨shape_start G, kindInv_start G κ size⟩ fun hs ha hnext =>
        ⟨shape_next hs.1 hnext, kindInv_next hs.2 hs.1 hsize (hok _ _ ha) hnext⟩
  exact hboth.2

end Steps

/-! ### Recycled slots -/

/-- The sizes of the records of each kind and role. -/
structure RecordSizes where
  size : RecordKind → Role → ℕ
  size_lt : ∀ k r, size k r < 2 ^ 16

def RecordSizes.of (sizes : RecordSizes) : SlotKind → ℕ
  | .rank => 24
  | .record k r => sizes.size k r

theorem RecordSizes.sizeOk (sizes : RecordSizes) (κ : SlotKind) : SizeOk κ (sizes.of κ) := by
  cases κ with
  | rank => rfl
  | record k r => exact sizes.size_lt k r

/-- A queued slot is queued once and owned by no link, and a slot that has been handed out is
owned by no link, so that nobody's record is overwritten by writing to it. -/
def RecycledFree (G : TransGroup n) (s : TransState n) : Prop :=
  ∀ κ, (s.store.handler.queue κ).Nodup ∧
    (∀ l, ∀ x ∈ s.store.handler.owned l κ, x ∉ s.store.handler.queue κ) ∧
    ∀ i, ∀ x ∈ (s.rank i).inFlight (G.role i) κ, ∀ l, x ∉ s.store.handler.owned l κ

/-- Clients write to slots they have been handed out, and records have two bytes. -/
def handedOut (G : TransGroup n) (s : TransState n) : TransEvent n → Bool
  | .step i =>
    match (s.rank i).request G i with
    | some (.appendRanks _) => s.store.slots .rank 24 < 2 ^ 16
    | some (.writeRanks slot _) => slot ∈ (s.rank i).inFlight (G.role i) .rank
    | some (.appendRecord k rec) =>
      rec.bytes.length = 2 ∧ s.store.slots (.record k (G.role i)) 2 < 2 ^ 16
    | some (.writeRecord k slot rec) =>
      rec.bytes.length = 2 ∧ slot ∈ (s.rank i).inFlight (G.role i) (.record k (G.role i))
    | _ => true
  | _ => true

def twoBytes : RecordSizes := ⟨fun _ _ => 2, fun _ _ => by norm_num⟩

theorem regular_of_handedOut {s : TransState n} {e : TransEvent n} (h : handedOut G s e = true)
    (κ : SlotKind) : Regular G κ (twoBytes.of κ) s e := by
  cases e with
  | step i =>
    intro q hq hkind
    rw [handedOut, hq] at h
    cases q with
    | appendRanks cfg =>
      cases hkind
      have hroom := of_decide_eq_true h
      exact hroom
    | writeRanks slot cfg =>
      cases hkind
      exact .inl (of_decide_eq_true h)
    | appendRecord k rec =>
      cases hkind
      have hboth := of_decide_eq_true h
      exact hboth
    | writeRecord k slot rec =>
      cases hkind
      have hboth := of_decide_eq_true h
      exact ⟨hboth.1, .inl hboth.2⟩
    | getRank | setRank rankId | getSlot k | addCount k => trivial
  | connect i l | drop i | clear i | expire l | generate i | store i k desc => trivial

/-- The first client registers and its link breaks; the second is handed out the rank id and
the device slot of the first. -/
def recycleEvents : List (TransEvent 2) :=
  initializeEvents 0 1 7 ++ breakEvents 0 ++ registerEvents 1 2 ++ [.store 1 .device [8], .step 1]

/-- The link of a client breaks twice.  Its first `ReRegisterToServer` is answered with its own
rank id and fails, which uses the id up; its second finds the queue empty, registers the old id
again, and `ReStoreDeviceInfo` writes the old device slot, still in `faultDeviceIdQueue_`. -/
def reconnectEvents : List (TransEvent 2) :=
  initializeEvents 0 1 7 ++ breakEvents 0 ++ returnEvents 0 3 1 ++ breakEvents 0 ++
    returnEvents 0 4 4

end Trans
