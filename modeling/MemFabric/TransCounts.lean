/-
Counts match records.

Storing a record takes two requests: the record is written, and then one is added to the count
of its kind and role.  `CountInv` says that the count and the number of clients in between add
up to the number of NORMAL records, and that `ClearFaultInfo` will take from the count what it
will take from the records of a link (`Book`), or nothing if its only record is not counted yet.

* `CountInv.put`, `.addCount`, `.clear` — a record is stored, it is counted, and the records of a
  broken link are lost.
-/
import MemFabric.TransSlots

namespace Trans

open Option SharedState RankInfo FaultHandler TransClient FaultStore List Finset Function Records
  Decimal

open ConfigStore

/-! ### Records and counts -/

def FaultStore.normals (s : FaultStore) (k : RecordKind) (r : Role) (size : ℕ) : Finset ℕ :=
  Records.flagged size normal ((s.backend (TransKey.info k r).key).getD [])

/-- The number under a count key; an absent key counts nothing. -/
def FaultStore.count (s : FaultStore) (k : RecordKind) (r : Role) : Option ℤ :=
  match s.backend (TransKey.count k r).key with
  | none => some 0
  | some text => Decimal.string2Int text

def CountText (value : Option Bytes) (c : ℤ) : Prop :=
  (value = none ∧ c = 0) ∨ value = some (Decimal.ofInt c)

/-- What the server remembers of the records of a link: their slots, whether there is a count
to take them from, and the size of a record. -/
structure Book where
  slots : List ℕ
  counted : Bool
  unit : ℕ

def RankInfo.book (info : RankInfo) (k : RecordKind) (r : Role) : Book where
  slots := info.owned (.record k r)
  counted := (info.record k).countKey = (TransKey.count k r).key
  unit := (info.record k).infoUnit

def FaultHandler.book (h : FaultHandler) (linkId : ℕ) (k : RecordKind) (r : Role) : Book :=
  ((h.linkIdToRankInfoMap linkId).map fun info => info.book k r).getD ⟨[], false, 0⟩

/-- The client has written a record of this kind and is about to add to its count. -/
def ClientPc.adding : ClientPc → Option RecordKind
  | .storeAdd k => some k
  | .restoreAdd k _ => some k
  | _ => none

variable {n : ℕ}

def adds (G : TransGroup n) (k : RecordKind) (r : Role) (i : Fin n) (c : TransClient) : Bool :=
  G.role i = r ∧ c.pc.adding = some k

def pending (G : TransGroup n) (s : TransState n) (k : RecordKind) (r : Role) : ℕ :=
  (Finset.univ.filter fun i => adds G k r i (s.rank i) = true).card

variable {G : TransGroup n} {s s' : TransState n} {i : Fin n} {k : RecordKind} {r : Role} {size : ℕ}

namespace FaultHandler

variable {h : FaultHandler} {linkId : ℕ}

theorem book_slots : (h.book linkId k r).slots = h.owned linkId (.record k r) := by
  rw [book, owned]
  cases h.linkIdToRankInfoMap linkId <;> rfl

theorem book_of_some {info : RankInfo} (hlink : h.linkIdToRankInfoMap linkId = some info) :
    h.book linkId k r = info.book k r := by
  rw [book, hlink, map_some, getD_some]

theorem book_of_none (hlink : h.linkIdToRankInfoMap linkId = none) :
    h.book linkId k r = ⟨[], false, 0⟩ := by
  rw [book, hlink, map_none, getD_none]

theorem book_setLink_self (info : RankInfo) :
    (h.setLink linkId (some info)).book linkId k r = info.book k r :=
  book_of_some (setLink_self _)

theorem book_setLink_of_ne {l : ℕ} (hl : l ≠ linkId) (info : Option RankInfo) :
    (h.setLink linkId info).book l k r = h.book l k r := by
  rw [book, setLink_of_ne hl, book]

end FaultHandler

/-! ### The invariant -/

/-- The book of a link in order; `adding` says whether its client is pending. -/
structure Booked (size : ℕ) (adding : Prop) (b : Book) : Prop where
  unit : b.slots ≠ [] → b.unit = size
  counted : b.counted = true → b.slots ≠ []
  uncounted : b.counted = false → b.slots = [] ∨ (adding ∧ b.slots.length = 1)
  adding : adding → b.slots ≠ []

theorem Booked.congr {adding adding' : Prop} {b : Book} (h : Booked size adding b)
    (ha : adding ↔ adding') : Booked size adding' b := by
  rwa [propext ha] at h

theorem Booked.blank {b : Book} (hslots : b.slots = []) (hcnt : b.counted = false) :
    Booked size False b where
  unit h := absurd hslots h
  counted h := by
    rw [hcnt] at h
    cases h
  uncounted _ := .inl hslots
  adding := False.elim

def AddsAt (G : TransGroup n) (s : TransState n) (k : RecordKind) (r : Role) (l : ℕ) : Prop :=
  ∃ i, (s.rank i).link = some l ∧ adds G k r i (s.rank i) = true

structure CountInv (G : TransGroup n) (k : RecordKind) (r : Role) (size : ℕ) (s : TransState n) :
    Prop where
  owned : ∀ {l x}, x ∈ s.store.handler.owned l (.record k r) → x ∈ s.store.normals k r size
  spare : ∀ {p : Place n} {x}, (∀ l, p ≠ .link l) → x ∈ held G s (.record k r) p →
    x ∉ s.store.normals k r size
  booked : ∀ l, Booked size (AddsAt G s k r l) (s.store.handler.book l k r)
  linked : ∀ i, adds G k r i (s.rank i) = true → (s.rank i).link ≠ none
  present : ∀ l, (s.store.handler.book l k r).counted = true →
    (s.store.backend (TransKey.count k r).key).isSome
  balance : ∃ c, CountText (s.store.backend (TransKey.count k r).key) c ∧
    c + pending G s k r = (s.store.normals k r size).card

variable {l : ℕ} {c : TransClient} {store : FaultStore}

theorem addsAt_iff (hshape : Shape G s) (hl : (s.rank i).link = some l) :
    AddsAt G s k r l ↔ adds G k r i (s.rank i) = true := by
  constructor
  · rintro ⟨j, hj, hadds⟩
    rwa [hshape.links hl hj]
  · exact fun hadds => ⟨i, hl, hadds⟩

theorem addsAt_move_of_ne (hold : (s.rank i).link ≠ some l) (hnew : c.link ≠ some l) :
    AddsAt G s k r l ↔ AddsAt G (s.move i c store) k r l := by
  have hsame : ∀ j, ((s.rank j).link = some l ∧ adds G k r j (s.rank j) = true) ↔
      (((s.move i c store).rank j).link = some l ∧
        adds G k r j ((s.move i c store).rank j) = true) := by
    intro j
    by_cases hj : j = i
    · subst hj
      rw [move_rank_self]
      exact ⟨fun h => absurd h.1 hold, fun h => absurd h.1 hnew⟩
    · rw [move_rank_of_ne hj]
  exact exists_congr hsame

theorem pending_move (c : TransClient) (store : FaultStore) :
    pending G (s.move i c store) k r + (adds G k r i (s.rank i)).toNat =
      pending G s k r + (adds G k r i c).toNat :=
  card_filter_move s i c store (adds G k r)

theorem CountInv.move (h : CountInv G k r size s) (hshape : Shape G s)
    (hl : (s.rank i).link = some l) (hlink : c.link = some l)
    (howned : ∀ {l x}, x ∈ store.handler.owned l (.record k r) → x ∈ store.normals k r size)
    (hspare : ∀ {p : Place n} {x}, (∀ l, p ≠ .link l) →
      x ∈ held G (s.move i c store) (.record k r) p → x ∉ store.normals k r size)
    (hother : ∀ l', l' ≠ l → store.handler.book l' k r = s.store.handler.book l' k r)
    (hself : Booked size (adds G k r i c = true) (store.handler.book l k r))
    (hpres : ∀ l, (store.handler.book l k r).counted = true →
      (store.backend (TransKey.count k r).key).isSome)
    (hbal : ∃ z, CountText (store.backend (TransKey.count k r).key) z ∧
      z + pending G s k r + (adds G k r i c).toNat =
        (store.normals k r size).card + (adds G k r i (s.rank i)).toNat) :
    CountInv G k r size (s.move i c store) where
  owned := howned
  spare := hspare
  booked l' := by
    have hlinks : ∀ j, ((s.move i c store).rank j).link = (s.rank j).link :=
      map_move link (hlink.trans hl.symm)
    by_cases hl' : l' = l
    · subst hl'
      refine hself.congr ⟨fun hadds => ⟨i, (hlinks i).trans hl, ?_⟩, ?_⟩
      · rwa [move_rank_self]
      rintro ⟨j, hj, hadds⟩
      obtain rfl := hshape.links ((hlinks j).symm.trans hj) hl
      rwa [move_rank_self] at hadds
    rw [move_store, hother l' hl']
    refine (h.booked l').congr (addsAt_move_of_ne ?_ ?_)
    · rw [hl]
      exact fun h => hl' (some.inj h).symm
    · rw [hlink]
      exact fun h => hl' (some.inj h).symm
  linked := by
    refine forall_move (p := fun j (c : TransClient) =>
      adds G k r j c = true → c.link ≠ none) (fun _ => ?_) fun j _ => h.linked j
    rw [hlink]
    exact some_ne_none l
  present := hpres
  balance := by
    obtain ⟨z, htext, hz⟩ := hbal
    refine ⟨z, htext, ?_⟩
    have hpend := pending_move (G := G) (s := s) (i := i) (k := k) (r := r) c store
    rw [move_store]
    omega

/-- What the queue and the clients hold after a move, when nothing has come into their hands. -/
theorem CountInv.spare_move (h : CountInv G k r size s)
    (hqueue : ∀ x ∈ store.handler.queue (.record k r), x ∈ s.store.handler.queue (.record k r))
    (hflight : ∀ x ∈ c.inFlight (G.role i) (.record k r),
      x ∈ (s.rank i).inFlight (G.role i) (.record k r)) {p : Place n} {x : ℕ}
    (hp : ∀ l, p ≠ .link l) (hx : x ∈ held G (s.move i c store) (.record k r) p) :
    x ∉ s.store.normals k r size := by
  refine h.spare hp ?_
  rcases p with _ | l | j
  · exact hqueue x hx
  · exact absurd rfl (hp l)
  by_cases hj : j = i
  · subst hj
    rw [held_move_self] at hx
    exact hflight x hx
  · rwa [held_move_of_ne hj] at hx

theorem CountInv.moveClient (h : CountInv G k r size s)
    (hadds : adds G k r i c = adds G k r i (s.rank i))
    (hlink : adds G k r i c = true → c.link = (s.rank i).link)
    (hflight : ∀ x ∈ c.inFlight (G.role i) (.record k r),
      x ∈ (s.rank i).inFlight (G.role i) (.record k r)) :
    CountInv G k r size (s.move i c s.store) where
  owned := h.owned
  spare hp hx := h.spare_move (fun _ => id) hflight hp hx
  booked l := by
    refine (h.booked l).congr (exists_congr fun j => ?_)
    by_cases hj : j = i
    · subst hj
      rw [move_rank_self, hadds]
      refine and_congr_left fun hold => ?_
      rw [hlink (hadds.trans hold)]
    · rw [move_rank_of_ne hj]
  linked := by
    refine forall_move (p := fun j (c : TransClient) =>
      adds G k r j c = true → c.link ≠ none) (fun hnew => ?_) fun j _ => h.linked j
    rw [hlink hnew]
    exact h.linked i (hadds.symm.trans hnew)
  present := h.present
  balance := by
    obtain ⟨z, htext, hz⟩ := h.balance
    have hpend := pending_move (G := G) (s := s) (i := i) (k := k) (r := r) c s.store
    rw [hadds] at hpend
    refine ⟨z, htext, ?_⟩
    rw [move_store]
    omega

/-! ### Requests about other records -/

section Other

variable {c : TransClient} {q : Request}

theorem adds_eq_false (h : G.role i = r → c.pc.adding ≠ some k) : adds G k r i c = false :=
  decide_eq_false fun hadds => h hadds.1 hadds.2

theorem adding_of_request (hq : c.request G i = some q) (hne : q ≠ .addCount k) :
    c.pc.adding ≠ some k := by
  intro hadding
  rw [request] at hq
  split at hq <;> simp_all [ClientPc.adding]

@[simp] theorem TransClient.resume_adding (todo : List Stored) :
    (c.resume todo).pc.adding = none := by
  cases todo <;> rfl

theorem adding_receive (hq : c.request G i = some q)
    (hκ : q.kind (G.role i) ≠ some (.record k (G.role i))) (o : Outcome) :
    (c.receive G i o).pc.adding ≠ some k := by
  have hkind : ∀ q', c.request G i = some q' →
      q'.kind (G.role i) ≠ some (.record k (G.role i)) := fun q' hq' =>
    some.inj (hq.symm.trans hq') ▸ hκ
  fun_cases receive
  all_goals first
    | (simp [reRegistered]; done)
    | (simp [goto, fail, generated, claim, ClientPc.adding]; done)
    | (intro hadding
       have hk := some.inj hadding
       simp [request, Request.kind, *] at hkind)

variable {info : RankInfo} {r' : Role}

theorem RankInfo.book_modify_of_ne {k' : RecordKind} (hk : k ≠ k') (f : RecordInfo → RecordInfo) :
    (info.modify k' f).book k r = info.book k r := by
  simp only [book, owned, record_modify_of_ne hk]

theorem RankInfo.book_blank (hinfo : (info.record k).infoKey ≠ (TransKey.info k r).key)
    (hcount : (info.record k).countKey ≠ (TransKey.count k r).key) :
    (info.book k r).slots = [] ∧ (info.book k r).counted = false :=
  ⟨if_neg hinfo, decide_eq_false hcount⟩

theorem RankInfo.Of.countKey_ne {b : Backend} (h : info.Of b r') (hr : r' ≠ r) :
    (info.record k).countKey ≠ (TransKey.count k r).key := by
  rcases h.countKey k with hkey | hkey
  · rw [hkey]
    exact (TransKey.key_ne_nil _).symm
  · rw [hkey]
    simp [hr]

theorem Effect.book {store store' : FaultStore} {linkId : ℕ} {name : Bytes}
    (h : Effect linkId name r' store store' q)
    (hown : ∀ {info}, store.handler.linkIdToRankInfoMap linkId = some info →
      info.Of store.backend r') (hκ : q.kind r' ≠ some (.record k r))
    (hadd : q = .addCount k → r' ≠ r) :
    (∀ l, l ≠ linkId → store'.handler.book l k r = store.handler.book l k r) ∧
      (store'.handler.book linkId k r = store.handler.book linkId k r ∨
        ((store'.handler.book linkId k r).slots = [] ∧
          (store'.handler.book linkId k r).counted = false)) := by
  cases h with
  | queues hlinks =>
    have hsame : ∀ l, store'.handler.book l k r = store.handler.book l k r := by
      intro l
      rw [FaultHandler.book, hlinks, FaultHandler.book]
    exact ⟨fun l _ => hsame l, .inl (hsame linkId)⟩
  | registered hhand =>
    rw [hhand, book_setLink_self]
    refine ⟨fun l hl => book_setLink_of_ne hl _, .inr (book_blank ?_ ?_)⟩
    · rw [new_infoKey]
      exact (TransKey.key_ne_nil _).symm
    · cases k <;> exact (TransKey.key_ne_nil _).symm
  | @put _ k' info index size hkind hlink hhand hkey =>
    rw [hhand, book_setLink_self]
    refine ⟨fun l hl => book_setLink_of_ne hl _, ?_⟩
    by_cases hk : k = k'
    · subst hk
      have hr : r' ≠ r := by
        rintro rfl
        exact hκ hkind
      refine .inr (book_blank ?_ ?_)
      · simp [hr]
      · rw [record_modify_self, (RecordInfo.put_frame ..).2.1]
        exact (hown hlink).countKey_ne hr
    · rw [book_modify_of_ne hk, book_of_some hlink]
      exact .inl rfl
  | @counted k' info hlink hhand =>
    rw [hhand, book_setLink_self]
    refine ⟨fun l hl => book_setLink_of_ne hl _, ?_⟩
    by_cases hk : k = k'
    · subst hk
      have hr : r' ≠ r := hadd rfl
      refine .inr ⟨?_, decide_eq_false ?_⟩
      · exact (owned_count ..).trans ((hown hlink).owned_of_ne hr.symm)
      · simp [hr]
    · rw [book_modify_of_ne hk, book_of_some hlink]
      exact .inl rfl

theorem Request.target_ne_count {name : Bytes} (hadd : q = .addCount k → r' ≠ r) :
    (TransKey.count k r).key ≠ (q.target name r').key := by
  cases q with
  | addCount k' =>
    simp only [Request.target, ne_eq, TransKey.key_inj, TransKey.count.injEq, not_and]
    rintro rfl
    exact (hadd rfl).symm
  | _ => simp [Request.target]

theorem CountInv.other (h : CountInv G k r size s) (hshape : Shape G s) {l : ℕ}
    {p : FaultStore × Outcome} (hp : Performed G s i l q p)
    (hκ : q.kind (G.role i) ≠ some (.record k r)) (hadd : q = .addCount k → G.role i ≠ r) :
    CountInv G k r size (s.move i ((s.rank i).receive G i p.2) p.1) := by
  obtain ⟨hb, heffect⟩ := hp.effect
  obtain ⟨hl, hq, -⟩ := hp
  have hsame := heffect.untouched hb hκ
  obtain ⟨hothers, hbook⟩ := heffect.book (k := k) (r := r) (hshape.own hl) hκ hadd
  have hnorm : p.1.normals k r size = s.store.normals k r size :=
    congrArg (fun v : Option Bytes => flagged size normal (v.getD [])) hsame.value
  have hcount : p.1.backend (TransKey.count k r).key = s.store.backend (TransKey.count k r).key :=
    hb.of_ne (Request.target_ne_count hadd)
  have hbefore : adds G k r i (s.rank i) = false :=
    adds_eq_false fun hr => adding_of_request hq fun hq => hadd hq hr
  have hafter : adds G k r i ((s.rank i).receive G i p.2) = false :=
    adds_eq_false fun hr => adding_receive hq (hr.symm ▸ hκ) _
  refine h.move hshape hl ((receive_link ..).trans hl) (fun hx => ?_)
    (fun {p' x} hp' hx => ?_) hothers ?_ (fun l' hcnt => ?_) ?_
  · rw [hnorm]
    exact h.owned ((hsame.owned _).subset hx)
  · rw [hnorm]
    refine h.spare_move (fun y hy => hsame.queue ▸ hy) (fun y hy => ?_) hp' hx
    rw [inFlight_receive hq hκ] at hy
    cases hy
  · have hold := (h.booked l).congr (addsAt_iff hshape hl)
    rw [hbefore] at hold
    rw [hafter]
    rcases hbook with hbook | ⟨hslots, hcnt⟩
    · rwa [hbook]
    · exact (Booked.blank hslots hcnt).congr (by simp)
  · rw [hcount]
    by_cases hl' : l' = l
    · subst hl'
      rcases hbook with hbook | ⟨-, hnot⟩
      · exact h.present l' (hbook ▸ hcnt)
      · cases hnot.symm.trans hcnt
    · exact h.present l' (hothers l' hl' ▸ hcnt)
  · obtain ⟨z, htext, hz⟩ := h.balance
    rw [hnorm, hcount, hbefore, hafter]
    exact ⟨z, htext, by omega⟩

end Other

/-! ### Storing a record -/

section Store

variable {l : ℕ} {p : FaultStore × Outcome}

theorem CountInv.getSlot (h : CountInv G k (G.role i) size s)
    (hkind : KindInv G (.record k (G.role i)) size s) (hshape : Shape G s)
    (hp : Performed G s i l (.getSlot k) p) :
    CountInv G k (G.role i) size (s.move i ((s.rank i).receive G i p.2) p.1) := by
  obtain ⟨hl, hq, hp⟩ := hp
  obtain ⟨rec, hpc⟩ := at_of_request hq
  have hbefore : adds G k (G.role i) i (s.rank i) = false :=
    adds_eq_false fun _ => adding_of_request hq (by simp)
  have hafter : ∀ reply, adds G k (G.role i) i ((s.rank i).receive G i (.got reply)) = false := by
    intro reply
    refine adds_eq_false fun _ => ?_
    cases reply <;> simp [receive, hpc, goto, ClientPc.adding]
  rw [← some.inj hp]
  rcases get_id_cases k (G.role i) with
    ⟨reply, hget, hreply⟩ | ⟨id, rest, hqueue, hget⟩
  · rw [hget]
    refine h.moveClient ((hafter reply).trans hbefore.symm) (fun hadds => ?_) fun x hx => ?_
    · cases (hafter reply).symm.trans hadds
    · rw [Prod.map_snd, inFlight_receive_got hreply] at hx
      cases hx
  rw [hget]
  have hid : id ∈ held G s (.record k (G.role i)) .queue := by
    rw [held, queue, hqueue]
    exact mem_cons_self
  have hrest : (s.store.handler.setIdQueue k (G.role i) rest).queue (.record k (G.role i)) =
      rest := (queue_setIdQueue ..).trans (if_pos rfl)
  refine h.move hshape hl ((receive_link ..).trans hl) h.owned
    (fun {p' x} hp' hx => ?_) (fun _ _ => rfl) ?_ h.present ?_
  · rcases p' with _ | l' | j
    · refine h.spare hp' (p := .queue) ?_
      rw [held, queue, hqueue]
      exact mem_cons_of_mem _ (hrest ▸ hx)
    · exact absurd rfl (hp' l')
    by_cases hj : j = i
    · subst hj
      simp only [held_move_self, Prod.map_snd, receive, hpc, goto,
        TransClient.inFlight, hkind.leValue hid, and_self, if_true, List.mem_singleton] at hx
      subst hx
      exact h.spare (p := .queue) (by simp) hid
    · rw [held_move_of_ne hj] at hx
      exact h.spare hp' hx
  · have hold := (h.booked l).congr (addsAt_iff hshape hl)
    rw [hbefore] at hold
    rw [Prod.map_snd, hafter]
    exact hold
  obtain ⟨z, htext, hz⟩ := h.balance
  rw [Prod.map_snd, hafter, hbefore]
  simp only [Bool.toNat_false, Nat.cast_zero, add_zero]
  exact ⟨z, htext, hz⟩

variable {info : RankInfo}

theorem RankInfo.mem_owned_put (index : ℕ) :
    index ∈ (info.modify k fun i => i.put k index size (TransKey.info k r).key).owned
      (.record k r) := by
  rw [owned, record_modify_self, (RecordInfo.put_frame ..).1, if_pos rfl]
  cases k with
  | device => exact List.mem_singleton_self _
  | slice => exact List.mem_append_right _ (List.mem_singleton_self _)

theorem CountInv.put (h : CountInv G k (G.role i) size s) (hshape : Shape G s)
    (hsize : size < 2 ^ 16) (hl : (s.rank i).link = some l) {x : ℕ} {c : TransClient}
    {store : FaultStore} (hkind : KindInv G (.record k (G.role i)) size (s.move i c store))
    (hlink : c.link = some l) (hinfo : s.store.handler.linkIdToRankInfoMap l = some info)
    (hhand : store.handler = s.store.handler.setLink l (some (info.modify k fun i' =>
      i'.put k x size (TransKey.info k (G.role i)).key)))
    (hx : x ∉ s.store.normals k (G.role i) size)
    (hnorm : store.normals k (G.role i) size = insert x (s.store.normals k (G.role i) size))
    (hcount : store.backend (TransKey.count k (G.role i)).key =
      s.store.backend (TransKey.count k (G.role i)).key) (hbefore : (s.rank i).pc.adding ≠ some k)
    (hafter : c.pc.adding = some k) : CountInv G k (G.role i) size (s.move i c store) := by
  have hof := hshape.own hl hinfo
  have hbefore : adds G k (G.role i) i (s.rank i) = false := adds_eq_false fun _ => hbefore
  have hflight : c.inFlight (G.role i) (.record k (G.role i)) = [] := by
    cases hpc : c.pc <;> simp_all [ClientPc.adding, inFlight]
  have hadds : adds G k (G.role i) i c = true := decide_eq_true ⟨rfl, hafter⟩
  have hself : store.handler.owned l (.record k (G.role i)) =
      (info.modify k fun i' => i'.put k x size (TransKey.info k (G.role i)).key).owned
        (.record k (G.role i)) := by
    rw [hhand, owned_setLink_self]
  have hsub : (store.handler.owned l (.record k (G.role i))).Sublist
      (s.store.handler.owned l (.record k (G.role i)) ++ [x]) := by
    rw [hself, owned_of_some hinfo]
    exact owned_put hof ..
  have hmem : x ∈ store.handler.owned l (.record k (G.role i)) := by
    rw [hself]
    exact mem_owned_put x
  have hne : store.handler.owned l (.record k (G.role i)) ≠ [] := ne_nil_of_mem hmem
  have hothers : ∀ l', l' ≠ l → store.handler.book l' k (G.role i) =
      s.store.handler.book l' k (G.role i) := by
    intro l' hl'
    rw [hhand, book_setLink_of_ne hl']
  have hcnt : (store.handler.book l k (G.role i)).counted =
      (s.store.handler.book l k (G.role i)).counted := by
    rw [hhand, book_setLink_self, book_of_some hinfo]
    simp only [RankInfo.book, record_modify_self, (RecordInfo.put_frame ..).2.1]
  refine h.move hshape hl hlink (fun {l' y} hy => ?_) (fun {p' y} hp' hy => ?_) hothers ?_
    (fun l' hl' => ?_) ?_
  · rw [hnorm, mem_insert]
    by_cases hl' : l' = l
    · subst hl'
      rcases mem_append.mp (hsub.subset hy) with hy | hy
      · exact .inr (h.owned hy)
      · exact .inl (List.mem_singleton.mp hy)
    · rw [hhand, owned_setLink_of_ne hl'] at hy
      exact .inr (h.owned hy)
  · rw [hnorm, mem_insert, not_or]
    refine ⟨?_, h.spare_move (fun z hz => ?_) (fun z hz => ?_) hp' hy⟩
    · -- The slot of the record is in one place only.
      rintro rfl
      exact hp' l (hkind.valid.unique hy (q := .link l) hmem)
    · rwa [hhand, queue_setLink] at hz
    · rw [hflight] at hz
      cases hz
  · have hold := (h.booked l).congr (addsAt_iff hshape hl)
    rw [hbefore] at hold
    refine ⟨fun _ => ?_, fun _ => ?_, fun hnot => .inr ⟨hadds, ?_⟩, fun _ => ?_⟩
    · rw [hhand, book_setLink_self]
      simp only [RankInfo.book, record_modify_self, (RecordInfo.put_frame ..).2.2]
      exact Nat.mod_eq_of_lt hsize
    · rwa [book_slots]
    · -- What has not been counted is the new record only.
      rw [book_slots]
      rcases hold.uncounted (hcnt.symm.trans hnot) with hnil | ⟨hadds, -⟩
      · rw [book_slots] at hnil
        rw [hnil] at hsub
        have hle := hsub.length_le
        have hpos := length_pos_iff.mpr hne
        simp only [nil_append, length_singleton] at hle
        omega
      · cases hadds
    · rwa [book_slots]
  · rw [hcount]
    by_cases hl'' : l' = l
    · subst hl''
      exact h.present l' (hcnt ▸ hl')
    · exact h.present l' (hothers l' hl'' ▸ hl')
  obtain ⟨z, htext, hz⟩ := h.balance
  rw [hnorm, card_insert_of_notMem hx, hcount, hbefore, hadds]
  refine ⟨z, htext, ?_⟩
  push_cast
  simp only [Bool.toNat_true, Bool.toNat_false]
  omega

theorem Record.bytes_flag (rec : Record) : rec.bytes[0]? = some normal := rfl

section

variable (h : CountInv G k (G.role i) size s) (hshape : Shape G s) (hsize : size < 2 ^ 16)
include h hshape hsize

theorem CountInv.appendRecord {rec : Record}
    (halign : Aligned (.record k (G.role i)) size s.store)
    (hok : RequestOk G (.record k (G.role i)) size s i (.appendRecord k rec))
    (hentry : s.store.handler.linkIdToRankInfoMap l ≠ none)
    (hp : Performed G s i l (.appendRecord k rec) p)
    (hkind : KindInv G (.record k (G.role i)) size (s.move i ((s.rank i).receive G i p.2) p.1)) :
    CountInv G k (G.role i) size (s.move i ((s.rank i).receive G i p.2) p.1) := by
  obtain ⟨hl, hq, hp⟩ := hp
  have hpc : (s.rank i).pc = .storeAppend k rec := at_of_request hq
  obtain ⟨hlen, hroom⟩ := hok
  have hpos : 0 < size := hlen ▸ length_pos_iff.mpr rec.bytes_ne_nil
  obtain ⟨info, hinfo⟩ := ne_none_iff_exists'.mp hentry
  have hindex : s.store.nextSlot (TransKey.info k (G.role i)).key size =
      s.store.slots (.record k (G.role i)) size := lastIndex_append hpos hroom
  simp only [perform, append_info rec.bytes_ne_nil, hinfo, map_some,
    Prod.map_apply, id, some.injEq, hlen, hindex] at hp
  subst hp
  refine h.put hshape hsize hl hkind ((receive_link ..).trans hl) hinfo rfl ?_ ?_ ?_
    (adding_of_request hq (by simp)) ?_
  · intro hmem
    exact absurd (mem_flagged.mp hmem).1 (lt_irrefl _)
  · simp only [normals, grown, update_self, getD_some]
    exact flagged_append hpos halign.dvd hlen rec.bytes_flag
  · exact update_of_ne (by simp) ..
  · simp only [receive, hpc, goto, ClientPc.adding]

theorem CountInv.writeRecord {slot : ℕ} {rec : Record}
    (hbefore : KindInv G (.record k (G.role i)) size s)
    (hok : RequestOk G (.record k (G.role i)) size s i (.writeRecord k slot rec))
    (hslotok : slot ∈ (s.rank i).inFlight (G.role i) (.record k (G.role i)) ∨
      slot ∉ s.store.normals k (G.role i) size)
    (hp : Performed G s i l (.writeRecord k slot rec) p)
    (hkind : KindInv G (.record k (G.role i)) size (s.move i ((s.rank i).receive G i p.2) p.1)) :
    CountInv G k (G.role i) size (s.move i ((s.rank i).receive G i p.2) p.1) := by
  obtain ⟨hl, hq, hp⟩ := hp
  obtain ⟨rfl, hheld⟩ := hok
  have hpos : 0 < rec.bytes.length := length_pos_iff.mpr rec.bytes_ne_nil
  have hslot : slot < s.store.slots (.record k (G.role i)) rec.bytes.length := by
    rcases hheld with hflight | hfree
    · exact hbefore.valid.lt (p := .client i) hflight
    · exact hfree.1
  have hslot16 : slot < 2 ^ 16 := lt_of_lt_of_le hslot hbefore.aligned.le
  have hx : slot ∉ s.store.normals k (G.role i) rec.bytes.length := by
    rcases hslotok with hflight | hnot
    · exact h.spare (p := .client i) (by simp) hflight
    · exact hnot
  obtain ⟨old, hold, hle⟩ := exists_of_lt_slots hslot
  have hinfoKey : s.store.backend (TransKey.info k (G.role i)).key = some old := hold
  have hnone := adding_of_request (k := k) hq (by simp)
  have hwhere := at_of_request hq
  cases hinfo : s.store.handler.linkIdToRankInfoMap l with
  | none =>
    -- Refused.
    simp only [perform, write_info hinfoKey rec.bytes_ne_nil hsize hslot16,
      hinfo, map_some, Prod.map_apply, id, some.injEq] at hp
    subst hp
    refine h.moveClient ?_ (fun _ => receive_link ..) fun _ h => by cases h
    rw [adds_eq_false fun _ => hnone]
    exact adds_eq_false fun _ h => by cases h
  | some info =>
    simp only [perform, write_info hinfoKey rec.bytes_ne_nil hsize hslot16,
      hinfo, map_some, Prod.map_apply, id, some.injEq] at hp
    subst hp
    refine h.put hshape hsize hl hkind ((receive_link ..).trans hl) hinfo rfl hx ?_ ?_ hnone ?_
    · rw [slots, hold, getD_some] at hslot
      simp only [normals, update_self, getD_some, overlay_eq_patch hle, hinfoKey]
      exact flagged_patch hpos hslot rfl rec.bytes_flag
    · exact update_of_ne (by simp) ..
    · rcases hwhere with hpc | ⟨todo, hpc⟩ <;> simp only [receive, hpc, goto, ClientPc.adding]

end

end Store

/-! ### Counting a record -/

section Add

variable {l : ℕ}

section

variable (h : CountInv G k r size s) (hshape : Shape G s) (hkind : KindInv G (.record k r) size s)
include h hshape hkind

theorem CountInv.pending_le : pending G s k r ≤ (s.store.normals k r size).card := by
  have hslot : ∀ i, adds G k r i (s.rank i) = true → ∃ l x, (s.rank i).link = some l ∧
      x ∈ s.store.handler.owned l (.record k r) := by
    intro i hadds
    obtain ⟨l, hl⟩ := ne_none_iff_exists'.mp (h.linked i hadds)
    have hne := (h.booked l).adding ⟨i, hl, hadds⟩
    rw [book_slots] at hne
    obtain ⟨x, hx⟩ := exists_mem_of_ne_nil _ hne
    exact ⟨l, x, hl, hx⟩
  choose! link slot hlink hmem using hslot
  refine card_le_card_of_injOn slot (fun i hi => ?_) fun i hi j hj hij => ?_
  · exact h.owned (hmem i (Finset.mem_filter.mp hi).2)
  have hi := (Finset.mem_filter.mp hi).2
  have hj := (Finset.mem_filter.mp hj).2
  have hsame : link i = link j := Place.link.inj
    (hkind.valid.unique (p := .link (link i)) (q := .link (link j)) (hmem i hi) (hij ▸ hmem j hj))
  exact hshape.links (hlink i hi) (hsame ▸ hlink j hj)

theorem CountInv.count_le : ∃ c : ℤ, CountText (s.store.backend (TransKey.count k r).key) c ∧
      c + pending G s k r = (s.store.normals k r size).card ∧ 0 ≤ c ∧ c ≤ 2 ^ 16 := by
  obtain ⟨c, htext, hc⟩ := h.balance
  have hle := h.pending_le hshape hkind
  have hcard : (s.store.normals k r size).card ≤ 2 ^ 16 := by
    refine (card_filter_le _ _).trans ?_
    rw [card_range]
    exact hkind.aligned.le
  exact ⟨c, htext, hc, by omega, by omega⟩

end

theorem inInt64_of_le {c : ℤ} (hlo : -2 ^ 16 ≤ c) (hhi : c ≤ 2 ^ 17) : Decimal.InInt64 c := by
  constructor <;> omega

theorem sumText_of {value : Option Bytes} {c : ℤ} (h : CountText value c)
    (hc : Decimal.InInt64 c) (hc' : Decimal.InInt64 (c + 1)) :
    FaultStore.sumText value = some (some (Decimal.ofInt (c + 1))) := by
  rcases h with ⟨rfl, rfl⟩ | rfl
  · rfl
  have hzero : ¬(c = 0 ∧ ofInt c ≠ Bytes.ofString "0") := by
    rintro ⟨rfl, hne⟩
    exact hne (by decide)
  rw [sumText, string2Int_ofInt hc]
  simp only [if_neg hzero, if_neg (not_not.mpr hc')]

theorem RankInfo.book_count {info : RankInfo} :
    (info.modify k fun i => { i with countKey := (TransKey.count k r).key }).book k r =
      { info.book k r with counted := true } := by
  simp only [book, owned_count, record_modify_self, decide_true]

theorem CountInv.addCount (h : CountInv G k (G.role i) size s) (hshape : Shape G s)
    (hkind : KindInv G (.record k (G.role i)) size s) {p : FaultStore × Outcome}
    (hp : Performed G s i l (.addCount k) p) :
    CountInv G k (G.role i) size (s.move i ((s.rank i).receive G i p.2) p.1) := by
  obtain ⟨hl, hq, hp⟩ := hp
  have hadding : (s.rank i).pc.adding = some k := by
    rcases at_of_request hq with hpc | ⟨todo, hpc⟩ <;> rw [hpc] <;> rfl
  have hadds : adds G k (G.role i) i (s.rank i) = true := decide_eq_true ⟨rfl, hadding⟩
  have hold := (h.booked l).congr (addsAt_iff hshape hl)
  have hslots := hold.adding hadds
  obtain ⟨info, hinfo⟩ : ∃ info, s.store.handler.linkIdToRankInfoMap l = some info := by
    refine ne_none_iff_exists'.mp fun hnone => hslots ?_
    rw [book_of_none hnone]
  obtain ⟨c, htext, hc, hlo, hhi⟩ := h.count_le hshape hkind
  have hsum := sumText_of htext (inInt64_of_le (by omega) (by omega))
    (inInt64_of_le (by omega) (by omega))
  simp only [perform, addOne_count, hinfo, hsum, map_some, Prod.map_apply, id, some.injEq] at hp
  subst hp
  have hafter : adds G k (G.role i) i ((s.rank i).receive G i (.done true)) = false :=
    adds_eq_false fun _ => adding_receive hq (fun h => by cases h) _
  have hnorm : ∀ text handler, normals ⟨update s.store.backend
      (TransKey.count k (G.role i)).key text, handler⟩ k (G.role i) size =
      s.store.normals k (G.role i) size := by
    intro text handler
    have hne : (TransKey.info k (G.role i)).key ≠ (TransKey.count k (G.role i)).key := by simp
    simp only [normals, update_of_ne hne]
  refine h.move hshape hl ((receive_link ..).trans hl) (fun {l' x} hx => ?_)
    (fun {p' x} hp' hx => ?_) (fun l' hl' => book_setLink_of_ne hl' _) ?_
    (fun l' _ => ?_) ?_
  · rw [hnorm]
    refine h.owned (l := l') ?_
    by_cases hl' : l' = l
    · subst hl'
      rw [owned_of_some hinfo]
      rwa [owned_setLink_self, owned_count] at hx
    · rwa [owned_setLink_of_ne hl'] at hx
  · rw [hnorm]
    refine h.spare_move (fun y hy => ?_) (fun y hy => ?_) hp' hx
    · rwa [queue_setLink] at hy
    · rw [inFlight_receive hq (fun h => by cases h)] at hy
      cases hy
  · rw [book_of_some hinfo] at hslots hold
    rw [book_setLink_self, book_count, hafter]
    exact ⟨hold.unit, fun _ => hslots, by simp, by simp⟩
  · dsimp only
    rw [update_self]
    rfl
  refine ⟨c + 1, .inr (update_self ..), ?_⟩
  rw [hnorm, hafter, hadds]
  simp only [Bool.toNat_true, Bool.toNat_false]
  omega

end Add

/-! ### Broken links -/

section Clear

variable {l : ℕ}

theorem markAbnormal_cons {id : ℕ} (hsize : size < 2 ^ 16) (hid : id < 2 ^ 16) (ids : List ℕ)
    (value : Bytes) :
    FaultHandler.markAbnormal size (id :: ids) value =
      FaultHandler.markAbnormal size ids (value.set (id * size) abnormal) := by
  have hlt : size * id < 2 ^ 32 :=
    calc size * id ≤ 65535 * 65535 := Nat.mul_le_mul (by omega) (by omega)
      _ < 2 ^ 32 := by norm_num
  rw [markAbnormal, foldl_cons, Nat.mod_eq_of_lt hlt, Nat.mul_comm, markAbnormal]

theorem flagged_markAbnormal (hpos : 0 < size) (hsize : size < 2 ^ 16) {ids : List ℕ}
    (hids : ∀ x ∈ ids, x < 2 ^ 16) (value : Bytes) :
    Records.flagged size normal (FaultHandler.markAbnormal size ids value) =
      Records.flagged size normal value \ ids.toFinset := by
  induction ids generalizing value with
  | nil => rw [toFinset_nil, sdiff_empty, markAbnormal, foldl_nil]
  | cons id ids ih =>
    rw [markAbnormal_cons hsize (hids id mem_cons_self),
      ih (fun x hx => hids x (mem_cons_of_mem _ hx)), flagged_set hpos (by decide),
      toFinset_cons, sdiff_insert, erase_sdiff_comm]

theorem CountInv.card_slots (h : CountInv G k r size s) (hkind : KindInv G (.record k r) size s)
    (l : ℕ) :
    (s.store.handler.book l k r).slots.toFinset ⊆ s.store.normals k r size ∧
      (s.store.handler.book l k r).slots.toFinset.card =
        (s.store.handler.book l k r).slots.length := by
  rw [book_slots]
  refine ⟨fun x hx => h.owned (mem_toFinset.mp hx), ?_⟩
  exact toFinset_card_of_nodup (hkind.valid.nodup (.link l))

section

variable (h : CountInv G k r size s) (hshape : Shape G s) (hkind : KindInv G (.record k r) size s)
include h hshape hkind

theorem CountInv.normals_clear (hsize : size < 2 ^ 16) : (s.store.clear l).normals k r size =
      s.store.normals k r size \ (s.store.handler.book l k r).slots.toFinset := by
  cases hinfo : s.store.handler.linkIdToRankInfoMap l with
  | none =>
    rw [clear_of_none hinfo, book_of_none hinfo, toFinset_nil, sdiff_empty]
  | some info =>
    obtain ⟨r', hof, -⟩ := hshape.entry hinfo
    have hbook : s.store.handler.book l k r = info.book k r := book_of_some hinfo
    rw [normals, clear_backend_info hinfo hof hshape.nil, normals, hbook]
    cases hvalue : s.store.backend (TransKey.info k r).key with
    | none => rw [map_none, getD_none, flagged_nil, empty_sdiff]
    | some value =>
      rw [map_some, getD_some, getD_some]
      by_cases hslots : info.owned (.record k r) = []
      · rw [RankInfo.book, hslots, toFinset_nil, sdiff_empty]
        rfl
      have hunit : (info.record k).infoUnit = size := by
        have hunit := (h.booked l).unit
        rw [hbook] at hunit
        exact hunit hslots
      have hheld : ∀ x ∈ info.owned (.record k r), x ∈ held G s (.record k r) (.link l) := by
        intro x hx
        rwa [held, owned_of_some hinfo]
      obtain ⟨x, hx⟩ := exists_mem_of_ne_nil _ hslots
      have hpos : 0 < size := by
        refine Nat.pos_of_ne_zero fun hzero => ?_
        have hlt := hkind.valid.lt (hheld x hx)
        rw [hzero, slots, Nat.div_zero] at hlt
        exact absurd hlt (Nat.not_lt_zero x)
      rw [hunit, flagged_markAbnormal hpos hsize fun x hx => hkind.lt (hheld x hx)]
      rfl

theorem CountInv.count_clear {c : ℤ}
    (hc : CountText (s.store.backend (TransKey.count k r).key) c) (hlo : 0 ≤ c) (hhi : c ≤ 2 ^ 16) :
    CountText ((s.store.clear l).backend (TransKey.count k r).key)
      (if (s.store.handler.book l k r).counted = true then
        c - (s.store.handler.book l k r).slots.length else c) := by
  cases hinfo : s.store.handler.linkIdToRankInfoMap l with
  | none =>
    rw [clear_of_none hinfo, book_of_none hinfo]
    exact hc
  | some info =>
    obtain ⟨r', hof, -⟩ := hshape.entry hinfo
    have hbook : s.store.handler.book l k r = info.book k r := book_of_some hinfo
    rw [clear_backend_count hinfo hof hshape.nil]
    by_cases hcnt : (info.record k).countKey = (TransKey.count k r).key
    · have htrue : (s.store.handler.book l k r).counted = true := by
        rw [hbook]
        exact decide_eq_true hcnt
      have hslots := (h.booked l).counted htrue
      have hcard := (h.card_slots hkind l)
      have hlen : (s.store.handler.book l k r).slots.length ≤ 2 ^ 16 := by
        rw [← hcard.2]
        refine (card_le_card hcard.1).trans ((card_filter_le _ _).trans ?_)
        rw [card_range]
        exact hkind.aligned.le
      have hlost : (info.record k).lost k = (s.store.handler.book l k r).slots.length := by
        rw [hbook] at hslots ⊢
        have hkey : (info.record k).infoKey = (TransKey.info k r).key := by
          by_contra hne
          exact hslots (if_neg hne)
        rw [RankInfo.book, RankInfo.owned, if_pos hkey]
        cases k with
        | device => exact hof.single.symm
        | slice => rfl
      rw [if_pos hcnt, if_pos htrue]
      rcases hc with ⟨hnone, -⟩ | hsome
      · have hpres := h.present l htrue
        rw [hnone] at hpres
        cases hpres
      rw [hsome, map_some, lowered, string2Int_ofInt (inInt64_of_le (by omega) (by omega)), hlost]
      dsimp only
      rw [wrap64_of_inInt64 (inInt64_of_le (by omega) (by omega))]
      exact .inr rfl
    have hfalse : ¬(s.store.handler.book l k r).counted = true := by
      rw [hbook]
      exact fun htrue => hcnt (of_decide_eq_true htrue)
    rw [if_neg hcnt, if_neg hfalse, Option.map_id, id]
    exact hc

end

theorem Shape.count_kept (h : Shape G s) (l : ℕ)
    (hkey : (s.store.backend (TransKey.count k r).key).isSome) :
    ((s.store.clear l).backend (TransKey.count k r).key).isSome := by
  cases hinfo : s.store.handler.linkIdToRankInfoMap l with
  | none => rwa [clear_of_none hinfo]
  | some info =>
    obtain ⟨r', hof, -⟩ := h.entry hinfo
    rwa [clear_backend_count hinfo hof h.nil, isSome_map]

/-- The server handles the break of link `l`, and the client that had it is idle without it.
The client was not pending, unless the only record of the link has not been counted. -/
theorem CountInv.clear (h : CountInv G k r size s) (hshape : Shape G s)
    (hkind : KindInv G (.record k r) size s) (hsize : size < 2 ^ 16)
    (hstore : s'.store = s.store.clear l)
    (hranks : ∀ j, (s'.rank j = s.rank j ∧
        ((s.rank j).link = some l → adds G k r j (s.rank j) = false)) ∨
      ((s.rank j).link = some l ∧ (s'.rank j).link = none ∧ (s'.rank j).pc = .idle))
    (hnone : ¬ AddsAt G s k r l → pending G s' k r = pending G s k r)
    (hsome : AddsAt G s k r l → pending G s' k r + 1 = pending G s k r ∧
      (s.store.handler.book l k r).counted = false) : CountInv G k r size s' := by
  have hnorm := h.normals_clear hshape hkind hsize (l := l)
  have hlinks := (hshape.cleared l).2.1
  have hothers : ∀ l', l' ≠ l → (s.store.clear l).handler.book l' k r =
      s.store.handler.book l' k r := by
    intro l' hl'
    rw [FaultHandler.book, hlinks, update_of_ne hl', FaultHandler.book]
  have hself : (s.store.clear l).handler.book l k r = ⟨[], false, 0⟩ :=
    book_of_none (by rw [hlinks, update_self])
  have hidle : ∀ j, (s'.rank j).pc = .idle → adds G k r j (s'.rank j) = false := by
    intro j hpc
    refine adds_eq_false fun _ => ?_
    rw [hpc]
    nofun
  have haddsAt : ∀ l', l' ≠ l → (AddsAt G s k r l' ↔ AddsAt G s' k r l') := by
    intro l' hl'
    refine exists_congr fun j => ?_
    rcases hranks j with ⟨hsame, -⟩ | ⟨hold, hnew, -⟩
    · rw [hsame]
    · rw [hold, hnew]
      exact ⟨fun h => absurd (some.inj h.1).symm hl', fun h => nomatch h.1⟩
  have hnobody : ¬ AddsAt G s' k r l := by
    rintro ⟨j, hj, hadds⟩
    rcases hranks j with ⟨hsame, hidle⟩ | ⟨-, hnew, -⟩
    · rw [hsame] at hj hadds
      cases (hidle hj).symm.trans hadds
    · cases hnew.symm.trans hj
  constructor
  case owned =>
    intro l' x hx
    rw [hstore] at hx ⊢
    by_cases hl' : l' = l
    · rw [hl', (hshape.clear_owned l _).1] at hx
      cases hx
    rw [(hshape.clear_owned l _).2 l' hl'] at hx
    rw [hnorm, Finset.mem_sdiff, List.mem_toFinset, FaultHandler.book_slots]
    refine ⟨h.owned hx, fun hx' => hl' ?_⟩
    exact Place.link.inj (hkind.valid.unique (p := .link l') (q := .link l) hx hx')
  case spare =>
    intro p x hp hx
    rw [hstore, hnorm, Finset.mem_sdiff, List.mem_toFinset, FaultHandler.book_slots]
    rintro ⟨hnormal, hlost⟩
    rcases p with _ | l' | j
    · rw [held, hstore, hshape.clear_queue] at hx
      rcases mem_append.mp hx with hx | hx
      · exact h.spare (p := .queue) hp hx hnormal
      · exact hlost hx
    · exact hp l' rfl
    rcases hranks j with ⟨hsame, -⟩ | ⟨-, -, hpc⟩
    · rw [held, hsame] at hx
      exact h.spare (p := .client j) hp hx hnormal
    · simp only [held, inFlight, hpc] at hx
      cases hx
  case booked =>
    intro l'
    rw [hstore]
    by_cases hl' : l' = l
    · subst hl'
      rw [hself]
      exact (Booked.blank rfl rfl).congr (by simpa using hnobody)
    · rw [hothers l' hl']
      exact (h.booked l').congr (haddsAt l' hl')
  case linked =>
    intro j hadds
    rcases hranks j with ⟨hsame, -⟩ | ⟨-, -, hpc⟩
    · rw [hsame] at hadds ⊢
      exact h.linked j hadds
    · cases (hidle j hpc).symm.trans hadds
  case present =>
    intro l' hcnt
    rw [hstore] at hcnt ⊢
    by_cases hl' : l' = l
    · rw [hl', hself] at hcnt
      cases hcnt
    · rw [hothers l' hl'] at hcnt
      exact hshape.count_kept l (h.present l' hcnt)
  case balance =>
    obtain ⟨c, htext, hc, hlo, hhi⟩ := h.count_le hshape hkind
    obtain ⟨hsub, hlen⟩ := h.card_slots hkind l
    have hcard := card_sdiff_add_card_eq_card hsub
    rw [← hnorm, hlen] at hcard
    refine ⟨_, hstore ▸ h.count_clear hshape hkind htext hlo hhi, ?_⟩
    rw [hstore]
    have hbooked := h.booked l
    by_cases hadds : AddsAt G s k r l
    · -- The record of the pending client goes, and has not been counted.
      obtain ⟨hpend, hcnt⟩ := hsome hadds
      rw [if_neg (by rw [hcnt]; decide)]
      rcases hbooked.uncounted hcnt with hnil | ⟨-, hone⟩
      · exact absurd hnil (hbooked.adding hadds)
      · omega
    rw [hnone hadds]
    cases hcnt : (s.store.handler.book l k r).counted with
    | true =>
      rw [if_pos rfl]
      omega
    | false =>
      rw [if_neg (by decide)]
      rcases hbooked.uncounted hcnt with hnil | ⟨hpend, -⟩
      · rw [hnil, length_nil] at hcard
        omega
      · exact absurd hpend hadds

end Clear

/-! ### Steps -/

/-- Records are stored over links that have been registered, and written to slots that have been
handed out or whose record is not NORMAL; a pending client does not change its link, its link
breaks only if its records have not been counted, and the checker does not give it up. -/
def booking (G : TransGroup n) (sizes : RecordSizes) (s : TransState n) : TransEvent n → Bool
  | .connect i _ => (s.rank i).pc.adding = none
  | .clear i =>
    match (s.rank i).pc.adding, (s.rank i).link with
    | some k, some l => !(s.store.handler.book l k (G.role i)).counted
    | _, _ => true
  | .expire l => ∀ j, (s.rank j).link = some l → (s.rank j).pc.adding = none
  | .step i =>
    match (s.rank i).request G i, (s.rank i).link with
    | some (.appendRecord _ _), some l => (s.store.handler.linkIdToRankInfoMap l).isSome
    | some (.writeRecord k slot _), _ =>
      slot ∈ (s.rank i).inFlight (G.role i) (.record k (G.role i)) ∨
        slot ∉ s.store.normals k (G.role i) (sizes.size k (G.role i))
    | _, _ => true
  | _ => true

section Steps

variable {sizes : RecordSizes}

section

variable (h : CountInv G k r (sizes.size k r) s)
include h

section

variable (hshape : Shape G s) (hkind : KindInv G (.record k r) (sizes.size k r) s)
include hshape hkind

theorem CountInv.step (hkind' : KindInv G (.record k r) (sizes.size k r) s')
    (hreg : Regular G (.record k r) (sizes.size k r) s (.step i))
    (hbooking : booking G sizes s (.step i) = true) (hnext : transNext G s (.step i) = some s') :
    CountInv G k r (sizes.size k r) s' := by
  obtain ⟨l, q, p, hp, rfl⟩ := transNext_step hnext
  have hsize := sizes.size_lt k r
  rw [booking, hp.request, hp.link] at hbooking
  by_cases hκ : q.kind (G.role i) = some (.record k r)
  · have hok := hreg q hp.request hκ
    cases q with
    | getSlot k' =>
      cases hκ
      exact h.getSlot hkind hshape hp
    | appendRecord k' rec =>
      cases hκ
      exact h.appendRecord hshape hsize hkind.aligned hok (isSome_iff_ne_none.mp hbooking) hp hkind'
    | writeRecord k' slot rec =>
      cases hκ
      exact h.writeRecord hshape hsize hkind hok (of_decide_eq_true hbooking) hp hkind'
    | getRank | setRank | appendRanks | writeRanks | addCount => cases hκ
  by_cases hadd : q = .addCount k ∧ G.role i = r
  · obtain ⟨rfl, rfl⟩ := hadd
    exact h.addCount hshape hkind hp
  · exact h.other hshape hp hκ fun hq hr => hadd ⟨hq, hr⟩

theorem CountInv.clearLink (hbooking : booking G sizes s (.clear i) = true)
    (hnext : transNext G s (.clear i) = some s') : CountInv G k r (sizes.size k r) s' := by
  obtain ⟨l, hl, -, rfl⟩ := transNext_clear hnext
  have hpend := pending_move (G := G) (s := s) (i := i) (k := k) (r := r)
    { s.rank i with link := none, pc := .idle } (s.store.clear l)
  have hafter : adds G k r i { s.rank i with link := none, pc := .idle } = false :=
    adds_eq_false fun _ => nofun
  rw [hafter] at hpend
  refine h.clear hshape hkind (sizes.size_lt k r) rfl (fun j => ?_) (fun hadds => ?_)
    fun hadds => ?_
  · by_cases hj : j = i
    · subst hj
      rw [move_rank_self]
      exact .inr ⟨hl, rfl, rfl⟩
    · rw [move_rank_of_ne hj]
      exact .inl ⟨rfl, fun hl' => absurd (hshape.links hl' hl) hj⟩
  · rw [addsAt_iff hshape hl] at hadds
    rw [Bool.eq_false_of_not_eq_true hadds] at hpend
    exact hpend
  rw [addsAt_iff hshape hl] at hadds
  rw [hadds] at hpend
  have hboth := of_decide_eq_true hadds
  rw [booking, hboth.2, hl, Bool.not_eq_true', hboth.1] at hbooking
  exact ⟨hpend, hbooking⟩

theorem countInv_next {e : TransEvent n}
    (hreg : Regular G (.record k r) (sizes.size k r) s e) (hbooking : booking G sizes s e = true)
    (hnext : transNext G s e = some s') : CountInv G k r (sizes.size k r) s' := by
  have hkind' := kindInv_next hkind hshape (sizes.size_lt k r) hreg hnext
  -- Where the client is not pending and has nothing in its hands afterwards.
  have hmove : ∀ {i : Fin n} {c : TransClient}, (s.rank i).pc.adding = none →
      c.pc.adding = none → c.inFlight (G.role i) (.record k r) = [] →
      CountInv G k r (sizes.size k r) (s.move i c s.store) := by
    intro i c hbefore hafter hflight
    have hnot : adds G k r i c = false := adds_eq_false fun _ => by rw [hafter]; exact nofun
    have hnot' : adds G k r i (s.rank i) = false :=
      adds_eq_false fun _ => by rw [hbefore]; exact nofun
    refine h.moveClient (hnot.trans hnot'.symm) (fun hadds => ?_) fun x hx => ?_
    · cases hnot.symm.trans hadds
    · rw [hflight] at hx
      cases hx
  cases e with
  | connect i l =>
    obtain ⟨-, -, -, rfl⟩ := transNext_connect hnext
    refine hmove (of_decide_eq_true hbooking) ?_ ?_ <;> rw [connected] <;> split <;> rfl
  | drop i =>
    obtain ⟨-, rfl⟩ := transNext_drop hnext
    refine h.moveClient ?_ (fun _ => ?_) fun x hx => ?_
    · simp [adds]
    · simp
    · rwa [inFlight_dropped] at hx
  | clear i => exact h.clearLink hshape hkind hbooking hnext
  | expire l =>
    obtain rfl := transNext_expire hnext
    have hidle : ∀ j, (s.rank j).link = some l → adds G k r j (s.rank j) = false := by
      intro j hj
      refine adds_eq_false fun _ => ?_
      rw [of_decide_eq_true hbooking j hj]
      exact nofun
    refine h.clear hshape hkind (sizes.size_lt k r) rfl (fun j => .inl ⟨rfl, hidle j⟩)
      (fun _ => rfl) ?_
    rintro ⟨j, hj, hadds⟩
    cases (hidle j hj).symm.trans hadds
  | generate i =>
    obtain ⟨-, hpc, -, -, rfl⟩ := transNext_generate hnext
    exact hmove (by rw [hpc]; rfl) rfl rfl
  | store i k' desc =>
    obtain ⟨-, hpc, -, rfl⟩ := transNext_store hnext
    exact hmove (by rw [hpc]; rfl) rfl rfl
  | step i => exact h.step hshape hkind hkind' hreg hbooking hnext

end

end

theorem countInv_start (G : TransGroup n) (k : RecordKind) (r : Role) (size : ℕ) :
    CountInv G k r size (transSystem G).start := by
  have hnorm : (transSystem G).start.store.normals k r size = ∅ := flagged_nil
  have hnot : ∀ i, adds G k r i ((transSystem G).start.rank i) = false := fun i =>
    adds_eq_false fun _ => nofun
  have hpend : pending G (transSystem G).start k r = 0 := by
    rw [pending, card_eq_zero, filter_eq_empty_iff]
    intro i _
    rw [hnot i]
    decide
  constructor
  case owned => nofun
  case spare =>
    intro p x _ _ hx
    rw [hnorm] at hx
    cases hx
  case booked => exact fun l => (Booked.blank rfl rfl).congr ⟨False.elim, fun ⟨_, h, _⟩ => nomatch h⟩
  case linked =>
    intro i hadds
    cases (hnot i).symm.trans hadds
  case present => nofun
  case balance =>
    refine ⟨0, .inl ⟨rfl, rfl⟩, ?_⟩
    rw [hpend, hnorm, card_empty]
    rfl

def Accounted (G : TransGroup n) (sizes : RecordSizes) (s : TransState n) (e : TransEvent n) :
    Prop :=
  (∀ k r, Regular G (.record k r) (sizes.size k r) s e) ∧ booking G sizes s e = true

/-- The count of a kind and role is the number of its NORMAL records, unless a client is between
writing a record and counting it, or has lost its link there and the break is not handled. -/
def CountsMatch (G : TransGroup n) (sizes : RecordSizes) (s : TransState n) : Prop :=
  ∀ k r, (∀ i, G.role i = r → (s.rank i).pc.adding ≠ some k) →
    s.store.count k r = some ((s.store.normals k r (sizes.size k r)).card : ℤ)

theorem count_of_countText {store : FaultStore} {c : ℤ}
    (h : CountText (store.backend (TransKey.count k r).key) c) (hlo : 0 ≤ c) (hhi : c ≤ 2 ^ 16) :
    store.count k r = some c := by
  rcases h with ⟨hnone, rfl⟩ | hsome
  · rw [FaultStore.count, hnone]
  · rw [FaultStore.count, hsome]
    exact string2Int_ofInt (inInt64_of_le (by omega) (by omega))

theorem CountInv.countsMatch (h : CountInv G k r size s) (hshape : Shape G s)
    (hkind : KindInv G (.record k r) size s)
    (hidle : ∀ i, G.role i = r → (s.rank i).pc.adding ≠ some k) :
    s.store.count k r = some ((s.store.normals k r size).card : ℤ) := by
  obtain ⟨c, htext, hc, hlo, hhi⟩ := h.count_le hshape hkind
  have hpend : pending G s k r = 0 := by
    rw [pending, card_eq_zero, filter_eq_empty_iff]
    intro i _
    rw [adds_eq_false (hidle i)]
    decide
  rw [count_of_countText htext hlo hhi, ← hc, hpend, Nat.cast_zero, add_zero]

/-- The link of the first client breaks before its first slice has been counted; the second
client has stored one. -/
def uncountedEvents : List (TransEvent 2) :=
  initializeEvents 0 1 7 ++ initializeEvents 1 2 8 ++ storeSliceEvents 1 5 ++ cutSliceEvents 0 9

/-- The counts of the senders and how many of their records are NORMAL. -/
def tally (s : TransState 2) : List (Option ℤ × ℕ) :=
  [.device, .slice].map fun k => (s.store.count k .sender, (s.store.normals k .sender 2).card)

/-- A client has stored a slice, and its link breaks when it has appended another one:
`ClearFaultInfo` takes both from the count, which is one. -/
def countedEvents : List (TransEvent 2) :=
  initializeEvents 0 1 7 ++ storeSliceEvents 0 8 ++ cutSliceEvents 0 9

end Steps

end Trans
