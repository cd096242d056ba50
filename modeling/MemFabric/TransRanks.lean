/-
Rank ids are unique.

A client holds its rank id in its own memory, under its rank key in the backend, and in the entry
of its link (`FaultHandler.registration`).  `Registration` says how they agree for one client,
and `RankInv` that entries belong to the clients whose links they are of.
-/
import MemFabric.TransSlots

namespace Trans

open Option FaultHandler SharedState TransClient FaultStore

open ConfigStore

/-! ### Registrations -/

/-- The rank id and the rank key that are remembered of a link. -/
def FaultHandler.registration (h : FaultHandler) (linkId : ℕ) : Option (ℕ × Key) :=
  (h.linkIdToRankInfoMap linkId).map fun info => (info.rankId, info.rankName)

/-- In `GenerateRankId` or `ReRegisterToServer`. -/
def ClientPc.registering : ClientPc → Bool
  | .genGet | .genAppend | .recWrite | .genSet | .reGet | .reWrite | .reSet => true
  | _ => false

/-- How the rank key of a client, the entry of its link and its own memory agree. -/
structure Registration (key : Key) (s : FaultStore) (c : TransClient) : Prop where
  stored : ∀ {v}, s.backend key = some v → ∃ l id, c.link = some l ∧
    s.handler.registration l = some (id, key) ∧ v = Bytes.le 2 id
  registered : c.registered = true → c.up = true → ∃ l, c.link = some l ∧
    s.handler.registration l = some (c.rankId, key)
  registering : c.pc.registering = true → c.registered = false
  fresh : c.pc = .reGet → ∀ {l}, c.link = some l → s.handler.registration l = none

section Registration

variable {key : Key} {s s' : FaultStore} {c c' : TransClient} {linkId : ℕ} {name : Bytes} {r : Role}
  {q : Request}

variable {h : FaultHandler}

theorem FaultHandler.registration_eq_none :
    h.registration linkId = none ↔ h.linkIdToRankInfoMap linkId = none :=
  map_eq_none_iff

theorem FaultHandler.owned_of_registration {id : ℕ}
    (hreg : h.registration linkId = some (id, key)) : h.owned linkId .rank = [id] := by
  obtain ⟨info, hinfo, hid⟩ := map_eq_some_iff.mp hreg
  rw [owned_of_some hinfo, RankInfo.owned, (Prod.mk.inj hid).1]

theorem Effect.registration (h : Effect linkId name r s s' q) (hq : ∀ id, q ≠ .setRank id) (l : ℕ) :
    s'.handler.registration l = s.handler.registration l := by
  have hmodify : ∀ {info : RankInfo} {k : RecordKind} {f : RecordInfo → RecordInfo},
      s.handler.linkIdToRankInfoMap linkId = some info →
      s'.handler = s.handler.setLink linkId (some (info.modify k f)) →
      s'.handler.registration l = s.handler.registration l := by
    intro info k f hlink hhand
    rw [FaultHandler.registration, hhand, FaultHandler.registration]
    by_cases hl : l = linkId
    · subst hl
      rw [setLink_self, hlink, map_some, map_some, RankInfo.rankId_modify, RankInfo.rankName_modify]
    · rw [setLink_of_ne hl]
  cases h with
  | queues hlinks => rw [FaultHandler.registration, hlinks, FaultHandler.registration]
  | registered => exact absurd rfl (hq _)
  | put index size hkind hlink hhand | counted hlink hhand => exact hmodify hlink hhand

theorem perform_rankKey {p : FaultStore × Outcome} (hp : s.perform linkId name r q = some p)
    (hb : WrittenAt (q.target name r) s p.1) (hq : ∀ id, q ≠ .setRank id) (name' : Bytes) :
    p.1.backend (TransKey.rank name').key = s.backend (TransKey.rank name').key := by
  cases q with
  | getRank =>
    rw [← some.inj hp]
    exact congrFun (get_backend _) _
  | setRank id => exact absurd rfl (hq id)
  | appendRanks cfg | writeRanks slot cfg | getSlot k | appendRecord k rec
  | writeRecord k slot rec | addCount k => exact hb.of_ne (by simp [Request.target])

namespace Registration

theorem congr (h : Registration key s c) (hkey : s'.backend key = s.backend key)
    (hlink : ∀ {l}, c.link = some l → s'.handler.registration l = s.handler.registration l) :
    Registration key s' c where
  stored hv := by
    obtain ⟨l, id, hl, hreg, hv⟩ := h.stored (hkey ▸ hv)
    exact ⟨l, id, hl, (hlink hl).trans hreg, hv⟩
  registered hreg hup := by
    obtain ⟨l, hl, hid⟩ := h.registered hreg hup
    exact ⟨l, hl, (hlink hl).trans hid⟩
  registering := h.registering
  fresh hpc _ hl := (hlink hl).trans (h.fresh hpc hl)

theorem stay (h : Registration key s c) (hlink : c'.link = c.link) (hup : c'.up = c.up)
    (hid : c.pc.registering = true ∨ c'.rankId = c.rankId) (hreg : c'.registered = c.registered)
    (hpc : c'.pc.registering = true → c.pc.registering = true) (hget : c'.pc ≠ .reGet) :
    Registration key s c' where
  stored hv := by
    rw [hlink]
    exact h.stored hv
  registered hreg' hup' := by
    rw [hreg] at hreg'
    rcases hid with hgen | hid
    · exact absurd (h.registering hgen) (by rw [hreg']; decide)
    · rw [hlink, hid]
      exact h.registered hreg' (hup ▸ hup')
  registering hgen := hreg.trans (h.registering (hpc hgen))
  fresh hpc' := absurd hpc' hget

theorem done {l : ℕ} (hl : c.link = some l) (hid : s.handler.registration l = some (c.rankId, key))
    (hstored : ∀ {v}, s.backend key = some v → v = Bytes.le 2 c.rankId)
    (hpc : c.pc.registering = false) : Registration key s c where
  stored hv := ⟨l, c.rankId, hl, hid, hstored hv⟩
  registered _ _ := ⟨l, hl, hid⟩
  registering hgen := absurd hgen (by rw [hpc]; decide)
  fresh hget := absurd (congrArg ClientPc.registering hget) (by rw [hpc]; decide)

end Registration

@[simp] theorem TransClient.resume_registering (todo : List Stored) :
    (c.resume todo).pc.registering = false := by
  cases todo <;> rfl

theorem Registration.resume (h : Registration key s c) (todo : List Stored) :
    Registration key s (c.resume todo) := by
  refine h.stay ?_ ?_ (.inr ?_) ?_ ?_ ?_
  all_goals first | simp; done | (cases todo <;> exact nofun)

theorem Registration.receive {n : ℕ} {G : TransGroup n} {i : Fin n} {o : Outcome}
    (h : Registration key s c) (hgot : ∀ v, o = .got (.success v) → c.pc ≠ .genGet ∧ c.pc ≠ .reGet)
    (hdone : o = .done true → c.pc ≠ .genSet ∧ c.pc ≠ .reSet) :
    Registration key s (c.receive G i o) := by
  fun_cases receive
  all_goals first
    | exact h.resume _
    | exact absurd ‹c.pc = .genGet› (hgot _ rfl).1
    | exact absurd ‹c.pc = .reGet› (hgot _ rfl).2
    | exact absurd ‹c.pc = .genSet› (hdone rfl).1
    | exact absurd ‹c.pc = .reSet› (hdone rfl).2
    | (refine h.stay ?_ ?_ ?_ ?_ ?_ ?_ <;> simp [goto, fail, claim, ClientPc.registering, *])

end Registration

/-! ### The invariant -/

variable {n : ℕ} {G : TransGroup n} {s s' : TransState n} {i : Fin n}

/-- Entries belong to the clients whose links they are of. -/
structure RankInv (G : TransGroup n) (s : TransState n) : Prop where
  entry : ∀ {l id key}, s.store.handler.registration l = some (id, key) →
    ∃ i, (s.rank i).link = some l ∧ key = (TransKey.rank (G.name i)).key
  client : ∀ i, Registration (TransKey.rank (G.name i)).key s.store (s.rank i)

theorem TransGroup.rankKey_ne {j : Fin n} (hj : j ≠ i) :
    (TransKey.rank (G.name j)).key ≠ (TransKey.rank (G.name i)).key := fun h =>
  hj (G.name_injective (TransKey.rank.inj (TransKey.key_injective h)))

variable {c : TransClient} {l : ℕ} {p : FaultStore × Outcome}

theorem Shape.registration_clear (hshape : Shape G s) (l : ℕ) :
    (s.store.clear l).handler.registration l = none ∧
      ∀ l', l' ≠ l → (s.store.clear l).handler.registration l' =
        s.store.handler.registration l' := by
  have hlinks := (hshape.cleared l).2.1
  refine ⟨?_, fun l' hl' => ?_⟩
  · rw [registration_eq_none, hlinks, Function.update_self]
  · rw [FaultHandler.registration, hlinks, Function.update_of_ne hl', FaultHandler.registration]

section

variable (h : RankInv G s)
include h

theorem RankInv.moveClient (hc : Registration (TransKey.rank (G.name i)).key s.store c)
    (hlink : ∀ l, (s.rank i).link = some l → s.store.handler.registration l ≠ none →
      c.link = some l) : RankInv G (s.move i c s.store) where
  entry hreg := by
    obtain ⟨j, hj, hkey⟩ := h.entry hreg
    refine ⟨j, ?_, hkey⟩
    by_cases hji : j = i
    · subst hji
      rw [move_rank_self]
      exact hlink _ hj (ne_none_iff_exists'.mpr ⟨_, hreg⟩)
    · rw [move_rank_of_ne hji]
      exact hj
  client := forall_move (p := fun j (c : TransClient) =>
    Registration (TransKey.rank (G.name j)).key s.store c) hc fun j _ => h.client j

theorem RankInv.moveStore (hshape : Shape G s) {store : FaultStore}
    (hl : (s.rank i).link = some l) (hlink : c.link = (s.rank i).link)
    (hc : Registration (TransKey.rank (G.name i)).key store c)
    (hself : ∀ {id key}, store.handler.registration l = some (id, key) →
      key = (TransKey.rank (G.name i)).key)
    (hother : ∀ l', l' ≠ l → store.handler.registration l' = s.store.handler.registration l')
    (hkeys : ∀ j, j ≠ i → store.backend (TransKey.rank (G.name j)).key =
      s.store.backend (TransKey.rank (G.name j)).key) : RankInv G (s.move i c store) where
  entry {l' id key} hreg := by
    have hlinks : ∀ j, ((s.move i c store).rank j).link = (s.rank j).link :=
      map_move link hlink
    by_cases hl' : l' = l
    · subst hl'
      exact ⟨i, (hlinks i).trans hl, hself hreg⟩
    · obtain ⟨j, hj, hkey⟩ := h.entry ((hother l' hl').symm.trans hreg)
      exact ⟨j, (hlinks j).trans hj, hkey⟩
  client := by
    refine forall_move (p := fun j (c : TransClient) =>
      Registration (TransKey.rank (G.name j)).key store c) hc fun j hj => ?_
    refine (h.client j).congr (hkeys j hj) fun {l'} hl' => hother l' ?_
    rintro rfl
    exact hj (hshape.links hl' hl)

theorem RankInv.setRank (hshape : Shape G s) (hkind : KindInv G .rank 24 s)
    {rankId : ℕ} (hp : Performed G s i l (.setRank rankId) p) :
    RankInv G (s.move i ((s.rank i).receive G i p.2) p.1) := by
  obtain ⟨hl, hq, hp⟩ := hp
  obtain ⟨hpc, rfl⟩ := at_of_request hq
  have hheld : (s.rank i).rankId ∈ held G s .rank (.client i) := by
    rcases hpc with hpc | hpc <;> simp [held, inFlight, hpc]
  simp only [perform, set_rank, Prod.map_apply, id, some.injEq,
    Nat.mod_eq_of_lt (hkind.lt hheld)] at hp
  subst hp
  have hnow : ((s.rank i).receive G i (.done true)).rankId = (s.rank i).rankId ∧
      ((s.rank i).receive G i (.done true)).pc.registering = false := by
    rcases hpc with hpc | hpc
    · simp only [receive, hpc, generated, ClientPc.registering, and_self]
    · simp [receive, hpc, reRegistered]
  have hreg : (s.store.handler.setLink l (some (.new (s.rank i).rankId
      (TransKey.rank (G.name i)).key))).registration l =
        some ((s.rank i).rankId, (TransKey.rank (G.name i)).key) := by
    rw [FaultHandler.registration, setLink_self]
    rfl
  refine h.moveStore hshape hl (receive_link ..) ?_ ?_ (fun l' hl' => ?_) fun j hj => ?_
  · refine .done ((receive_link ..).trans hl) ?_ (fun {v} hv => ?_) hnow.2
    · rw [hnow.1]
      exact hreg
    · simp only [Function.update_self, some.injEq] at hv
      exact hv.symm.trans (congrArg _ hnow.1.symm)
  · intro id key hkey
    rw [hreg] at hkey
    exact (Prod.mk.inj (some.inj hkey)).2.symm
  · rw [FaultHandler.registration, setLink_of_ne hl', FaultHandler.registration]
  · exact Function.update_of_ne (G.rankKey_ne hj) ..

theorem RankInv.getRank (hkind : KindInv G .rank 24 s) {value : Bytes}
    (hvalue : s.store.backend (TransKey.rank (G.name i)).key = some value)
    (hp : Performed G s i l .getRank p) :
    RankInv G (s.move i ((s.rank i).receive G i p.2) p.1) := by
  obtain ⟨hl, hq, hp⟩ := hp
  obtain ⟨l', rankId, hl', hreg, rfl⟩ := (h.client i).stored hvalue
  obtain rfl : l = l' := some.inj (hl.symm.trans hl')
  simp only [perform, get_rank_some hvalue, Prod.map_apply, id, some.injEq] at hp
  subst hp
  rcases at_of_request hq with hpc | hpc
  · have hheld : rankId ∈ held G s .rank (.link l) := by
      rw [held, owned_of_registration hreg]
      exact List.mem_singleton_self rankId
    have hlen : (Bytes.le 2 rankId).length = 2 := rfl
    refine h.moveClient ?_ fun l' hl' _ => (receive_link ..).trans hl'
    simp only [receive, hpc, hlen, if_true, hkind.leValue hheld]
    refine .done hl hreg (fun hv => ?_) rfl
    exact some.inj (hv.symm.trans hvalue)
  · -- A client that has come back finds no key.
    cases hreg.symm.trans ((h.client i).fresh hpc hl)

theorem RankInv.other (hshape : Shape G s) {q : Request} (hp : Performed G s i l q p)
    (hset : ∀ id, q ≠ .setRank id)
    (hget : q = .getRank → s.store.backend (TransKey.rank (G.name i)).key = none) :
    RankInv G (s.move i ((s.rank i).receive G i p.2) p.1) := by
  obtain ⟨hb, heffect⟩ := hp.effect
  obtain ⟨hl, hq, hp⟩ := hp
  have hregs := heffect.registration hset
  have hkeys := perform_rankKey hp hb hset
  refine h.moveStore hshape hl (receive_link ..) ?_ ?_ (fun l' _ => hregs l') fun j _ => hkeys _
  · refine ((h.client i).congr (hkeys _) fun _ => hregs _).receive (fun v hv => ?_) fun _ => ?_
    · -- The reply to a GET of the rank key is another one.
      have hnot : q ≠ .getRank := by
        rintro rfl
        rw [perform, get_rank_none (G.name_plain i) (hget rfl)] at hp
        rw [← some.inj hp] at hv
        cases hqueue : s.store.handler.faultRankIdQueue <;> simp [hqueue] at hv
      constructor <;> intro hpc <;> simp [request, hpc] at hq <;> exact hnot hq.symm
    · constructor <;> intro hpc <;> simp [request, hpc] at hq <;> exact hset _ hq.symm
  intro id key hreg
  rw [hregs] at hreg
  obtain ⟨j, hj, hkey⟩ := h.entry hreg
  rw [hkey, hshape.links hj hl]

theorem RankInv.rankKey_cleared (hshape : Shape G s) (hl : (s.rank i).link = some l) :
    (s.store.clear l).backend (TransKey.rank (G.name i)).key = none := by
  cases hinfo : s.store.handler.linkIdToRankInfoMap l with
  | none =>
    rw [clear_of_none hinfo]
    refine eq_none_iff_forall_ne_some.mpr fun v hv => ?_
    obtain ⟨l', id, hl', hreg, -⟩ := (h.client i).stored hv
    obtain rfl : l = l' := some.inj (hl.symm.trans hl')
    cases (registration_eq_none.mpr hinfo).symm.trans hreg
  | some info =>
    obtain ⟨j, hj, hname⟩ := h.entry (map_eq_some_iff.mpr ⟨info, hinfo, rfl⟩)
    obtain rfl : i = j := hshape.links hl hj
    exact hname ▸ clear_backend_rankName hinfo (hshape.own hl hinfo) hshape.nil

theorem RankInv.rankKey_kept (hshape : Shape G s) (hl : (s.rank i).link ≠ some l) :
    (s.store.clear l).backend (TransKey.rank (G.name i)).key =
      s.store.backend (TransKey.rank (G.name i)).key := by
  cases hinfo : s.store.handler.linkIdToRankInfoMap l with
  | none => rw [clear_of_none hinfo]
  | some info =>
    obtain ⟨j, hj, hname⟩ := h.entry (map_eq_some_iff.mpr ⟨info, hinfo, rfl⟩)
    have hij : i ≠ j := by
      rintro rfl
      exact hl hj
    exact clear_backend_other hinfo (hshape.own hj hinfo) hshape.nil (hname ▸ G.rankKey_ne hij)
      (by simp) (by simp)

theorem RankInv.step (hshape : Shape G s) (hkind : KindInv G .rank 24 s)
    (hnext : transNext G s (.step i) = some s') : RankInv G s' := by
  obtain ⟨l, q, p, hp, rfl⟩ := transNext_step hnext
  by_cases hset : ∃ id, q = .setRank id
  · obtain ⟨id, rfl⟩ := hset
    exact h.setRank hshape hkind hp
  by_cases hget : q = .getRank ∧ ∃ v, s.store.backend (TransKey.rank (G.name i)).key = some v
  · obtain ⟨rfl, v, hv⟩ := hget
    exact h.getRank hkind hv hp
  · refine h.other hshape hp (not_exists.mp hset) fun hq => ?_
    exact eq_none_iff_forall_ne_some.mpr fun v hv => hget ⟨hq, v, hv⟩

/-- The server handles the break of a link that is not up. -/
theorem RankInv.clear (hshape : Shape G s)
    (hdown : ∀ j, (s.rank j).link = some l → (s.rank j).up = false) :
    RankInv G ⟨s.store.clear l, s.rank⟩ := by
  obtain ⟨hself, hother⟩ := hshape.registration_clear l
  refine ⟨fun {l' id key} hreg => ?_, fun j => ?_⟩
  · have hne : l' ≠ l := by
      rintro rfl
      cases hself.symm.trans hreg
    exact h.entry ((hother l' hne).symm.trans hreg)
  by_cases hj : (s.rank j).link = some l
  · refine ⟨fun hv => ?_, fun _ hup => ?_, (h.client j).registering, fun _ _ hl => ?_⟩
    · cases (h.rankKey_cleared hshape hj).symm.trans hv
    · exact absurd hup (by rw [hdown j hj]; decide)
    · obtain rfl := some.inj (hj.symm.trans hl)
      exact hself
  · refine (h.client j).congr (h.rankKey_kept hshape hj) fun {l'} hl' => hother l' ?_
    rintro rfl
    exact hj hl'

end

/-- A client reconnects after the server has handled the break of its old link, and the checker
gives up no link that is up. -/
def Prompt (s : TransState n) : TransEvent n → Prop
  | .connect i _ => (s.rank i).link = none
  | .expire l => ∀ j, (s.rank j).link = some l → (s.rank j).up = false
  | _ => True

instance (s : TransState n) (e : TransEvent n) : Decidable (Prompt s e) :=
  match e with
  | .connect i _ => inferInstanceAs (Decidable ((s.rank i).link = none))
  | .expire l => inferInstanceAs (Decidable (∀ j, (s.rank j).link = some l → (s.rank j).up = false))
  | .drop _ | .clear _ | .generate _ | .store _ _ _ | .step _ => isTrue trivial

theorem rankInv_next {e : TransEvent n} (h : RankInv G s) (hshape : Shape G s)
    (hkind : KindInv G .rank 24 s) (hok : Prompt s e) (hnext : transNext G s e = some s') :
    RankInv G s' := by
  cases e with
  | connect i l =>
    obtain ⟨-, -, hnone, rfl⟩ := transNext_connect hnext
    have hlink : (s.rank i).link = none := hok
    have hfresh : s.store.handler.registration l = none :=
      registration_eq_none.mpr hnone
    refine h.moveClient ⟨fun hv => ?_, fun hreg => ?_, fun _ => ?_, fun _ l' hl' => ?_⟩
      fun l' hl' => ?_
    · obtain ⟨l', id, hl', -⟩ := (h.client i).stored hv
      cases hlink.symm.trans hl'
    · simp at hreg
    · simp
    · obtain rfl : l = l' := by simpa using hl'
      exact hfresh
    · cases hlink.symm.trans hl'
  | drop i =>
    obtain ⟨-, rfl⟩ := transNext_drop hnext
    have hc := h.client i
    refine h.moveClient ⟨fun hv => ?_, fun _ hup => ?_, fun hpc => ?_, fun hpc l hl => ?_⟩ ?_
    · simpa using hc.stored hv
    · simp at hup
    · simpa using hc.registering (by simpa using hpc)
    · exact hc.fresh (by simpa using hpc) (by simpa using hl)
    · exact fun l hl _ => by simpa using hl
  | clear i =>
    obtain ⟨l, hl, hup, rfl⟩ := transNext_clear hnext
    have hclear := h.clear hshape fun j hj => hshape.links hj hl ▸ hup
    have hself := (hshape.registration_clear l).1
    refine hclear.moveClient ⟨fun hv => ?_, fun _ hup' => ?_, nofun, nofun⟩ fun l' hl' hreg => ?_
    · -- The key of a client that is stored is registered for its link.
      obtain ⟨l', id, hl', hreg, -⟩ := (hclear.client i).stored hv
      obtain rfl : l = l' := some.inj (hl.symm.trans hl')
      cases hself.symm.trans hreg
    · exact absurd hup' (by rw [hup]; decide)
    · obtain rfl : l = l' := some.inj (hl.symm.trans hl')
      exact absurd hself hreg
  | expire l =>
    obtain rfl := transNext_expire hnext
    exact h.clear hshape hok
  | generate i =>
    obtain ⟨-, -, -, -, rfl⟩ := transNext_generate hnext
    exact h.moveClient ⟨(h.client i).stored, nofun, fun _ => rfl, nofun⟩ fun _ hl _ => hl
  | store i k desc =>
    obtain ⟨-, -, -, rfl⟩ := transNext_store hnext
    exact h.moveClient ((h.client i).stay rfl rfl (.inr rfl) rfl nofun nofun) fun _ hl _ => hl
  | step i => exact h.step hshape hkind hnext

theorem rankInv_start (G : TransGroup n) : RankInv G (transSystem G).start :=
  ⟨nofun, fun _ => ⟨nofun, nofun, nofun, nofun⟩⟩

/-! ### Uniqueness -/

/-- No two clients that are registered and whose links are up hold the same rank id. -/
def RankIdsUnique (s : TransState n) : Prop :=
  ∀ i j, i ≠ j → (s.rank i).registered = true → (s.rank i).up = true →
    (s.rank j).registered = true → (s.rank j).up = true → (s.rank i).rankId ≠ (s.rank j).rankId

theorem RankInv.unique (h : RankInv G s) (hshape : Shape G s) (hkind : KindInv G .rank 24 s) :
    RankIdsUnique s := by
  intro i j hij hregi hupi hregj hupj hid
  obtain ⟨l, hl, hi⟩ := (h.client i).registered hregi hupi
  obtain ⟨l', hl', hj⟩ := (h.client j).registered hregj hupj
  have hheldi : (s.rank i).rankId ∈ held G s .rank (.link l) := by
    rw [held, owned_of_registration hi]
    exact List.mem_singleton_self _
  have hheldj : (s.rank i).rankId ∈ held G s .rank (.link l') := by
    rw [held, owned_of_registration hj, hid]
    exact List.mem_singleton_self _
  obtain rfl : l = l' := Place.link.inj (hkind.valid.unique hheldi hheldj)
  exact hij (hshape.links hl hl')

/-- Two clients register; the second loses its link, and registers again under the id that has
been recycled. -/
def registerAgainEvents : List (TransEvent 2) :=
  registerEvents 0 1 ++ registerEvents 1 2 ++ breakEvents 1 ++ registerEvents 1 3

/-- What the clients of a pair believe: registered, up, and under which rank id. -/
def beliefs (s : TransState 2) : List (Bool × Bool × ℕ) :=
  [((s.rank 0).registered, (s.rank 0).up, (s.rank 0).rankId),
    ((s.rank 1).registered, (s.rank 1).up, (s.rank 1).rankId)]

/-- The link of the first client breaks and its rank id is handed out to the second.  The first
comes back: its rank key is gone and the queue is empty, so `ReRegisterToServer` registers the
old id again. -/
def takenEvents : List (TransEvent 2) :=
  initializeEvents 0 1 7 ++ breakEvents 0 ++ registerEvents 1 2 ++ returnEvents 0 3 3

end Trans
