/-
The trans clients and the server they share.

A client is a `SmemTransEntry` with its `SmemStoreHelper`.  It registers (`GenerateRankId`,
`StoreDeviceInfo`), stores slices (`StoreSliceInfo`) and, when it has got its link back,
registers again and rewrites its records (`ReInitialize`).  Each call is a sequence of requests:
`ClientPc` says where in a call the client is, `request` what it is about to send and `receive`
how it goes on with the answer.  Requests of different clients interleave, and links come up and
break in between (`transNext`): the client notices that its link is gone (`drop`), and the server
handles the break (`clear`).  The heartbeat checker gives up a link on its own, one that the
client has left or one that is up (`expire`).
-/
import MemFabric.FaultStore
import MemFabric.SharedState
import MemFabric.Transition

namespace Trans

open Option

open ConfigStore

/-- The fixed data of n clients.  A name is `ip:port`; the configuration is the
`smem_trans_config_t` that a client registers, of 24 bytes. -/
structure TransGroup (n : ℕ) where
  name : Fin n → Bytes
  role : Fin n → Role
  cfg : Fin n → Bytes
  name_injective : Function.Injective name
  name_plain : ∀ i, 95 ∉ name i
  cfg_length : ∀ i, (cfg i).length = 24

/-- A record as a client writes it: the status byte NORMAL and a descriptor. -/
structure Record where
  desc : Bytes
  deriving DecidableEq

def Record.bytes (rec : Record) : Bytes := normal :: rec.desc

theorem Record.bytes_ne_nil (rec : Record) : rec.bytes ≠ [] := List.cons_ne_nil _ _

/-- A record to be written again: its kind, slot and content. -/
abbrev Stored := RecordKind × ℕ × Record

/-- The request that a client is about to send. -/
inductive ClientPc
  | idle
  -- `GenerateRankId`, with `RecoverRankInformation`
  | genGet
  | genAppend
  | recWrite
  | genSet
  -- `StoreDeviceInfo`, `StoreSliceInfo`
  | storeGet (k : RecordKind) (rec : Record)
  | storeWrite (k : RecordKind) (rec : Record) (slot : ℕ)
  | storeAppend (k : RecordKind) (rec : Record)
  | storeAdd (k : RecordKind)
  -- `ReRegisterToServer`
  | reGet
  | reWrite
  | reSet
  -- `ReStoreDeviceInfo`, `ReStoreSliceInfo`, with what is left to write
  | restore (k : RecordKind) (slot : ℕ) (rec : Record) (todo : List Stored)
  | restoreAdd (k : RecordKind) (todo : List Stored)
  deriving DecidableEq

/-- The state of a client.  `registered` is the result of its last registration,
`GenerateRankId` or `ReRegisterToServer`, and false while one is under way; `result` is that
of the last call that returned, and `initialized` is set by `Initialize`. -/
structure TransClient where
  link : Option ℕ
  up : Bool
  pc : ClientPc
  rankId : ℕ
  registered : Bool
  initialized : Bool
  result : Bool
  storeRankIdInfo : ℕ × Bytes
  storeDeviceInfo : Option (ℕ × Record)
  storeSliceInfo : List (ℕ × Record)
  deriving DecidableEq

namespace TransClient

def init : TransClient where
  link := none
  up := false
  pc := .idle
  rankId := 0
  registered := false
  initialized := false
  result := false
  storeRankIdInfo := (0, [])
  storeDeviceInfo := none
  storeSliceInfo := []

def goto (c : TransClient) (pc : ClientPc) : TransClient := { c with pc := pc }

def fail (c : TransClient) : TransClient := { c with pc := .idle, result := false }

def generated (c : TransClient) (rankId : ℕ) : TransClient :=
  { c with pc := .idle, result := true, registered := true, rankId := rankId }

/-- The rank id and the configuration are kept for `ReRegisterToServer`. -/
def claim (c : TransClient) (rankId : ℕ) (cfg : Bytes) : TransClient :=
  { c with pc := .genSet, rankId := rankId, storeRankIdInfo := (rankId, cfg) }

/-- A stored record is kept for `ReInitialize`. -/
def remember (c : TransClient) (k : RecordKind) (slot : ℕ) (rec : Record) : TransClient :=
  match k with
  | .device => { c with storeDeviceInfo := some (slot, rec) }
  | .slice => { c with storeSliceInfo := c.storeSliceInfo ++ [(slot, rec)] }

/-- A slice whose APPEND fails is kept too, with the slot that a size of 0 gives. -/
def rememberFailed (c : TransClient) (k : RecordKind) (rec : Record) : TransClient :=
  match k with
  | .device => c
  | .slice => c.remember .slice (lastIndex 0 rec.bytes.length) rec

/-- The records that `ReInitialize` writes. -/
def stored (c : TransClient) : List Stored :=
  (c.storeDeviceInfo.toList.map fun p => (.device, p.1, p.2)) ++
    c.storeSliceInfo.map fun p => (.slice, p.1, p.2)

def resume (c : TransClient) : List Stored → TransClient
  | [] => { c with pc := .idle, result := true }
  | (k, slot, rec) :: todo => c.goto (.restore k slot rec todo)

/-- `ReRegisterToServer` has returned. -/
def reRegistered (c : TransClient) : TransClient := { c with registered := true }.resume c.stored

/-- The link is up.  An entry whose `Initialize` has not returned is gone with its old link and
a new one starts from nothing; the others call `ReInitialize`. -/
def connected (c : TransClient) (linkId : ℕ) : TransClient :=
  if c.initialized then
    { c with link := some linkId, up := true, pc := .reGet, registered := false, result := false }
  else { init with link := some linkId, up := true }

/-- The client notices that its link is gone and the call it is in fails.  The program counter
stays until the server has handled the break. -/
def dropped (c : TransClient) : TransClient :=
  let c := { c with up := false, result := false }
  match c.pc with
  | .storeGet k rec => c.rememberFailed k rec
  | .storeAppend k rec => c.rememberFailed k rec
  | _ => c

/-! What these leave alone. -/

variable {c : TransClient}

@[simp] theorem resume_frame (todo : List Stored) :
    (c.resume todo).link = c.link ∧ (c.resume todo).up = c.up ∧
      (c.resume todo).rankId = c.rankId ∧ (c.resume todo).registered = c.registered ∧
      (c.resume todo).storeRankIdInfo = c.storeRankIdInfo := by
  cases todo <;> exact ⟨rfl, rfl, rfl, rfl, rfl⟩

@[simp] theorem remember_frame (k : RecordKind) (slot : ℕ) (rec : Record) :
    (c.remember k slot rec).link = c.link ∧ (c.remember k slot rec).up = c.up ∧
      (c.remember k slot rec).pc = c.pc ∧ (c.remember k slot rec).rankId = c.rankId ∧
      (c.remember k slot rec).registered = c.registered ∧
      (c.remember k slot rec).storeRankIdInfo = c.storeRankIdInfo := by
  cases k <;> exact ⟨rfl, rfl, rfl, rfl, rfl, rfl⟩

@[simp] theorem rememberFailed_frame (k : RecordKind) (rec : Record) :
    (c.rememberFailed k rec).link = c.link ∧ (c.rememberFailed k rec).up = c.up ∧
      (c.rememberFailed k rec).pc = c.pc ∧ (c.rememberFailed k rec).rankId = c.rankId ∧
      (c.rememberFailed k rec).registered = c.registered ∧
      (c.rememberFailed k rec).storeRankIdInfo = c.storeRankIdInfo := by
  cases k <;> exact ⟨rfl, rfl, rfl, rfl, rfl, rfl⟩

@[simp] theorem connected_frame (linkId : ℕ) :
    (c.connected linkId).link = some linkId ∧ (c.connected linkId).up = true ∧
      (c.connected linkId).registered = false := by
  rw [connected]
  split <;> exact ⟨rfl, rfl, rfl⟩

@[simp] theorem dropped_frame :
    c.dropped.link = c.link ∧ c.dropped.up = false ∧ c.dropped.pc = c.pc ∧
      c.dropped.rankId = c.rankId ∧ c.dropped.registered = c.registered ∧
      c.dropped.storeRankIdInfo = c.storeRankIdInfo := by
  rw [dropped]
  split <;> simp

end TransClient

/-! ### Requests -/

/-- The requests of a client: of its rank id, of the list of ranks, of the records and counts
of its role. -/
inductive Request
  | getRank
  | setRank (rankId : ℕ)
  | appendRanks (cfg : Bytes)
  | writeRanks (slot : ℕ) (cfg : Bytes)
  | getSlot (k : RecordKind)
  | appendRecord (k : RecordKind) (rec : Record)
  | writeRecord (k : RecordKind) (slot : ℕ) (rec : Record)
  | addCount (k : RecordKind)

/-- What a request returns: the reply to a GET, the new size if an APPEND is accepted, and for
the others whether they are. -/
inductive Outcome
  | got (reply : GetReply)
  | appended (newSize : Option ℕ)
  | done (accepted : Bool)

/-- The server performs a request of a client with the given name and role. -/
def FaultStore.perform (s : FaultStore) (linkId : ℕ) (name : Bytes) (r : Role) :
    Request → Option (FaultStore × Outcome)
  | .getRank => some ((s.get (TransKey.rank name).key).map id .got)
  | .setRank rankId =>
    some ((s.set linkId (TransKey.rank name).key (Bytes.le 2 rankId)).map id .done)
  | .appendRanks cfg =>
    (s.append linkId TransKey.ranksInfo.key cfg).map (Prod.map id .appended)
  | .writeRanks slot cfg =>
    (s.write linkId TransKey.ranksInfo.key cfg (slot * cfg.length)).map (Prod.map id .done)
  | .getSlot k => some ((s.get (TransKey.id k r).key).map id .got)
  | .appendRecord k rec =>
    (s.append linkId (TransKey.info k r).key rec.bytes).map (Prod.map id .appended)
  | .writeRecord k slot rec =>
    (s.write linkId (TransKey.info k r).key rec.bytes (slot * rec.bytes.length)).map
      (Prod.map id .done)
  | .addCount k => (s.addOne linkId (TransKey.count k r).key).map (Prod.map id .done)

section Requests

variable {n : ℕ} (G : TransGroup n) (i : Fin n) (c : TransClient)

/-- The request that client `i` sends. -/
def TransClient.request : Option Request :=
  match c.pc with
  | .idle => none
  | .genGet => some .getRank
  | .genAppend => some (.appendRanks (G.cfg i))
  | .recWrite => some (.writeRanks c.rankId (G.cfg i))
  | .genSet => some (.setRank c.rankId)
  | .storeGet k _ => some (.getSlot k)
  | .storeWrite k rec slot => some (.writeRecord k slot rec)
  | .storeAppend k rec => some (.appendRecord k rec)
  | .storeAdd k => some (.addCount k)
  | .reGet => some .getRank
  | .reWrite => some (.writeRanks c.storeRankIdInfo.1 c.storeRankIdInfo.2)
  | .reSet => some (.setRank c.rankId)
  | .restore k slot rec _ => some (.writeRecord k slot rec)
  | .restoreAdd k _ => some (.addCount k)

/-- Where a client is when it sends a request. -/
def TransClient.At : Request → Prop
  | .getRank => c.pc = .genGet ∨ c.pc = .reGet
  | .setRank rankId => (c.pc = .genSet ∨ c.pc = .reSet) ∧ c.rankId = rankId
  | .appendRanks cfg => c.pc = .genAppend ∧ G.cfg i = cfg
  | .writeRanks slot cfg => (c.pc = .recWrite ∧ c.rankId = slot ∧ G.cfg i = cfg) ∨
      (c.pc = .reWrite ∧ c.storeRankIdInfo = (slot, cfg))
  | .getSlot k => ∃ rec, c.pc = .storeGet k rec
  | .appendRecord k rec => c.pc = .storeAppend k rec
  | .writeRecord k slot rec => c.pc = .storeWrite k rec slot ∨
      ∃ todo, c.pc = .restore k slot rec todo
  | .addCount k => c.pc = .storeAdd k ∨ ∃ todo, c.pc = .restoreAdd k todo

variable {G i c} in
theorem TransClient.at_of_request {q : Request} (hq : c.request G i = some q) : c.At G i q := by
  rw [TransClient.request] at hq
  split at hq <;> cases hq <;> simp_all [TransClient.At]

theorem TransGroup.cfg_ne_nil : G.cfg i ≠ [] :=
  List.ne_nil_of_length_pos (by rw [G.cfg_length]; norm_num)

theorem TransClient.appended_ne_nil {q : Request} (hq : c.request G i = some q) (cfg : Bytes)
    (hcfg : q = .appendRanks cfg) : cfg ≠ [] := by
  subst hcfg
  exact (at_of_request hq).2 ▸ G.cfg_ne_nil i

def TransClient.receive : Outcome → TransClient
  | .got .notExist =>
    match c.pc with
    | .genGet => c.goto .genAppend
    | .storeGet k rec => c.goto (.storeAppend k rec)
    | .reGet => c.goto .reWrite
    | _ => c.fail
  | .got (.restore value) =>
    match c.pc with
    | .genGet => { c with pc := .recWrite, rankId := Bytes.leValue value }
    | .storeGet k rec => c.goto (.storeWrite k rec (Bytes.leValue value))
    -- `ReRegisterToServer` returns an error; the id has left its queue and is lost.
    | _ => c.fail
  | .got (.success value) =>
    match c.pc with
    | .genGet => if value.length = 2 then c.generated (Bytes.leValue value) else c.fail
    | .storeGet k rec => c.goto (.storeAppend k rec)
    | .reGet => if value.length = 2 then c.reRegistered else c.fail
    | _ => c.fail
  | .appended (some newSize) =>
    match c.pc with
    | .genAppend => c.claim (lastIndex newSize (G.cfg i).length) (G.cfg i)
    | .storeAppend k rec =>
      (c.remember k (lastIndex newSize rec.bytes.length) rec).goto (.storeAdd k)
    | _ => c.fail
  | .appended none =>
    match c.pc with
    | .storeAppend k rec => (c.rememberFailed k rec).fail
    | _ => c.fail
  | .done true =>
    match c.pc with
    | .recWrite => c.claim c.rankId (G.cfg i)
    | .genSet => c.generated c.rankId
    | .storeWrite k rec slot => (c.remember k slot rec).goto (.storeAdd k)
    | .storeAdd k =>
      { c with pc := .idle, result := true, initialized := c.initialized || k = .device }
    | .reWrite => c.goto .reSet
    | .reSet => c.reRegistered
    | .restore k _ _ todo => c.goto (.restoreAdd k todo)
    | .restoreAdd _ todo => c.resume todo
    | _ => c.fail
  | .done false => c.fail

theorem TransClient.receive_link (o : Outcome) : (c.receive G i o).link = c.link := by
  fun_cases TransClient.receive <;> simp [goto, fail, generated, claim, reRegistered]

/-- The server answers the request of client `i`, which came over this link. -/
def serve (linkId : ℕ) (s : FaultStore) : Option (FaultStore × TransClient) :=
  (c.request G i).bind fun q =>
    (s.perform linkId (G.name i) (G.role i) q).map fun p => (p.1, c.receive G i p.2)

end Requests

/-! ### The system -/

inductive TransEvent (n : ℕ)
  | connect (i : Fin n) (linkId : ℕ)
  | drop (i : Fin n)
  | clear (i : Fin n)
  | expire (linkId : ℕ)
  | generate (i : Fin n)
  | store (i : Fin n) (k : RecordKind) (desc : Bytes)
  | step (i : Fin n)
  deriving DecidableEq

abbrev TransState (n : ℕ) := SharedState FaultStore TransClient n

/-- `StoreDeviceInfo` is called by `Initialize` after the registration, `StoreSliceInfo` once
`Initialize` has returned. -/
def mayStore (c : TransClient) : RecordKind → Bool
  | .device => c.registered && !c.initialized
  | .slice => c.initialized

def transNext {n : ℕ} (G : TransGroup n) (s : TransState n) : TransEvent n → Option (TransState n)
  | .connect i l =>
    if (s.rank i).up = false ∧ (∀ j, (s.rank j).link ≠ some l) ∧
        s.store.handler.linkIdToRankInfoMap l = none then
      some (s.move i ((s.rank i).connected l) s.store)
    else none
  | .drop i => if (s.rank i).up then some (s.move i (s.rank i).dropped s.store) else none
  | .clear i =>
    match (s.rank i).link with
    | none => none
    | some l =>
      if (s.rank i).up then none
      else some (s.move i { s.rank i with link := none, pc := .idle } (s.store.clear l))
  | .expire l => some ⟨s.store.clear l, s.rank⟩
  | .generate i =>
    let c := s.rank i
    if c.up ∧ c.pc = .idle ∧ c.registered = false ∧ c.initialized = false then
      -- `Initialize` of a new entry
      some (s.move i { TransClient.init with link := c.link, up := true, pc := .genGet } s.store)
    else none
  | .store i k desc =>
    let c := s.rank i
    if c.up ∧ c.pc = .idle ∧ mayStore c k then
      some (s.move i (c.goto (.storeGet k ⟨desc⟩)) s.store)
    else none
  | .step i =>
    match (s.rank i).link with
    | none => none
    | some l =>
      if (s.rank i).up then (serve G i (s.rank i) l s.store).map fun p => s.move i p.2 p.1
      else none

def transSystem {n : ℕ} (G : TransGroup n) : TransitionSystem (TransState n) (TransEvent n) where
  start := ⟨FaultStore.init, fun _ => TransClient.init⟩
  next := transNext G

/-! What each event does. -/

section Events

variable {n : ℕ} {G : TransGroup n} {s s' : TransState n} {i : Fin n}

theorem transNext_connect {l : ℕ} (h : transNext G s (.connect i l) = some s') :
    (s.rank i).up = false ∧ (∀ j, (s.rank j).link ≠ some l) ∧
      s.store.handler.linkIdToRankInfoMap l = none ∧
      s' = s.move i ((s.rank i).connected l) s.store := by
  obtain ⟨⟨hup, hfresh, hnone⟩, hs'⟩ := ite_none_right_eq_some.mp h
  exact ⟨hup, hfresh, hnone, (some.inj hs').symm⟩

theorem transNext_drop (h : transNext G s (.drop i) = some s') :
    (s.rank i).up = true ∧ s' = s.move i (s.rank i).dropped s.store := by
  obtain ⟨hup, hs'⟩ := ite_none_right_eq_some.mp h
  exact ⟨hup, (some.inj hs').symm⟩

theorem transNext_clear (h : transNext G s (.clear i) = some s') :
    ∃ l, (s.rank i).link = some l ∧ (s.rank i).up = false ∧
      s' = s.move i { s.rank i with link := none, pc := .idle } (s.store.clear l) := by
  simp only [transNext] at h
  split at h
  · cases h
  next l hlink =>
    obtain ⟨hup, hs'⟩ := ite_none_left_eq_some.mp h
    exact ⟨l, hlink, Bool.eq_false_of_not_eq_true hup, (some.inj hs').symm⟩

theorem transNext_expire {l : ℕ} (h : transNext G s (.expire l) = some s') :
    s' = ⟨s.store.clear l, s.rank⟩ :=
  (some.inj h).symm

theorem transNext_generate (h : transNext G s (.generate i) = some s') :
    (s.rank i).up = true ∧ (s.rank i).pc = .idle ∧ (s.rank i).registered = false ∧
      (s.rank i).initialized = false ∧
      s' = s.move i { TransClient.init with link := (s.rank i).link, up := true, pc := .genGet }
        s.store := by
  obtain ⟨⟨hup, hpc, hreg, hinit⟩, hs'⟩ := ite_none_right_eq_some.mp h
  exact ⟨hup, hpc, hreg, hinit, (some.inj hs').symm⟩

theorem transNext_store {k : RecordKind} {desc : Bytes}
    (h : transNext G s (.store i k desc) = some s') :
    (s.rank i).up = true ∧ (s.rank i).pc = .idle ∧ mayStore (s.rank i) k = true ∧
      s' = s.move i ((s.rank i).goto (.storeGet k ⟨desc⟩)) s.store := by
  obtain ⟨⟨hup, hpc, hmay⟩, hs'⟩ := ite_none_right_eq_some.mp h
  exact ⟨hup, hpc, hmay, (some.inj hs').symm⟩

/-- Client `i` sends a request over its link; `p` is the store behind it and the answer. -/
structure Performed (G : TransGroup n) (s : TransState n) (i : Fin n) (l : ℕ) (q : Request)
    (p : FaultStore × Outcome) : Prop where
  link : (s.rank i).link = some l
  request : (s.rank i).request G i = some q
  result : s.store.perform l (G.name i) (G.role i) q = some p

theorem transNext_step (h : transNext G s (.step i) = some s') :
    ∃ l q p, Performed G s i l q p ∧ s' = s.move i ((s.rank i).receive G i p.2) p.1 := by
  simp only [transNext] at h
  split at h
  · cases h
  next l hlink =>
    obtain ⟨-, hs'⟩ := ite_none_right_eq_some.mp h
    obtain ⟨p, hserve, rfl⟩ := map_eq_some_iff.mp hs'
    obtain ⟨q, hq, hp⟩ := bind_eq_some_iff.mp hserve
    obtain ⟨p₁, hp₁, rfl⟩ := map_eq_some_iff.mp hp
    exact ⟨l, q, p₁, ⟨hlink, hq, hp₁⟩, rfl⟩

theorem transNext_step_of {l : ℕ} {q : Request} {p : FaultStore × Outcome}
    (hl : (s.rank i).link = some l) (hup : (s.rank i).up = true)
    (hq : (s.rank i).request G i = some q)
    (hp : s.store.perform l (G.name i) (G.role i) q = some p) :
    transNext G s (.step i) = some (s.move i ((s.rank i).receive G i p.2) p.1) := by
  simp only [transNext, hl, hup, if_true, serve, hq, bind_some, hp, map_some]

end Events

/-! ### Two senders -/

scoped instance neZero_two : NeZero 2 := ⟨two_ne_zero⟩

def twoSenders : TransGroup 2 where
  name i := if i = 0 then Bytes.ofString "a:1" else Bytes.ofString "b:1"
  role _ := .sender
  cfg _ := List.replicate 24 0
  name_injective := by decide
  name_plain := by decide
  cfg_length := by decide

/-- The events of `GenerateRankId` over a new link. -/
def registerEvents (i : Fin 2) (linkId : ℕ) : List (TransEvent 2) :=
  [.connect i linkId, .generate i, .step i, .step i, .step i]

/-- The events of `Initialize` of client `i`, with one byte as descriptor of its device. -/
def initializeEvents (i : Fin 2) (linkId : ℕ) (desc : UInt8) : List (TransEvent 2) :=
  registerEvents i linkId ++ [.store i .device [desc], .step i, .step i, .step i]

/-- The link of client `i` breaks. -/
def breakEvents (i : Fin 2) : List (TransEvent 2) := [.drop i, .clear i]

/-- Client `i` comes back, and makes some steps. -/
def returnEvents (i : Fin 2) (linkId steps : ℕ) : List (TransEvent 2) :=
  .connect i linkId :: List.replicate steps (.step i)

def storeSliceEvents (i : Fin 2) (desc : UInt8) : List (TransEvent 2) :=
  [.store i .slice [desc], .step i, .step i, .step i]

/-- The link breaks when the slice has been appended and not been counted. -/
def cutSliceEvents (i : Fin 2) (desc : UInt8) : List (TransEvent 2) :=
  [.store i .slice [desc], .step i, .step i, .drop i, .clear i]

end Trans
