/-
The trans clients over the configuration store server.

The runs of `transSystem` are over a `FaultStore`.  Its operations are what the server makes of
the packed messages of the clients, with the fault handler registered (`get_answered`,
`set_answered`, ..), and of a link that breaks.
-/
import MemFabric.StoreLimits
import MemFabric.TransLinks

namespace Trans

open FaultHandler List Option

open ConfigStore

def faults (s : Server FaultHandler) : FaultStore := ⟨s.backend, s.handler⟩

/-- The request as `SmemStoreHelper` sends it. -/
def Request.op (name : Bytes) (r : Role) : Request → StoreOp
  | .getRank => .get (TransKey.rank name).key 0
  | .setRank rankId => .set (TransKey.rank name).key (Bytes.le 2 rankId)
  | .appendRanks cfg => .append TransKey.ranksInfo.key cfg
  | .writeRanks slot cfg => .write TransKey.ranksInfo.key (slot * cfg.length) cfg
  | .getSlot k => .get (TransKey.id k r).key 0
  | .appendRecord k rec => .append (TransKey.info k r).key rec.bytes
  | .writeRecord k slot rec => .write (TransKey.info k r).key (slot * rec.bytes.length) rec.bytes
  | .addCount k => .add (TransKey.count k r).key 1

/-- The reply tells the outcome of a request.  A WRITE out of range is not answered. -/
def Outcome.Told (ctx : ReqCtx) (reply : Option Reply) : Outcome → Prop
  | .got (.success value) => reply = some ⟨ctx, .success, pack { mt := .get, values := [value] }⟩
  | .got (.restore value) => reply = some ⟨ctx, .restore, pack { mt := .get, values := [value] }⟩
  | .got .notExist => reply = some ⟨ctx, .notExist, Bytes.ofString "<not exist>"⟩
  | .appended (some size) => reply = some ⟨ctx, .success, Decimal.ofNat size⟩
  | .appended none => reply = some ⟨ctx, .error, Bytes.ofString "failed"⟩
  | .done accepted => reply.map Reply.code = some .success ↔ accepted = true

/-- The server serves `op` over link `l`, and its first reply tells the outcome. -/
def Answered (srv : Server FaultHandler) (l : ℕ) (op : StoreOp) (p : FaultStore × Outcome) : Prop :=
  ∀ uid now, ∃ a, requestHandler handlers srv ⟨uid, l, 0⟩ op.message now = some a ∧
    faults a.server = p.1 ∧ p.2.Told ⟨uid, l, 0⟩ a.replies.head?

section Requests

variable {srv : Server FaultHandler} {l : ℕ} (hl : l ∈ srv.established) {t : TransKey}
  (hkey : t.key.length ≤ maxKeyLenServer)

theorem key_unranked (t : TransKey) : autoRankingStr.isPrefixOf t.key = false := by
  cases t <;> rfl

include hl hkey

theorem get_answered : Answered srv l (.get t.key 0) (((faults srv).get t.key).map id .got) := by
  intro uid now
  simp only [requestHandler, StoreOp.message, getHandler, gt_iff_lt, if_neg (not_lt.mpr hkey),
    key_unranked, Bool.false_eq_true, if_false, getKey, FaultStore.get, executeHandle, handlers,
    faults]
  cases srv.backend t.key with
  | some v => simp [Outcome.Told, answer, replyWithMessage, hl]
  | none =>
    cases srv.handler.getFromFaultInfo t.key with
    | some p | none =>
      simp [Outcome.Told, answer, replyWithMessage, hl, smObjectNotExists, smGetObject]

theorem set_answered (value : Bytes) :
    Answered srv l (.set t.key value) (((faults srv).set l t.key value).map id .done) := by
  intro uid now
  simp only [requestHandler, StoreOp.message, setHandler, gt_iff_lt, if_neg (not_lt.mpr hkey),
    setKey, executeHandle, handlers, map_some, some.injEq, exists_eq_left', FaultStore.set, faults]
  by_cases hok : (srv.handler.buildLinkIdToRankInfoMap l t.key value).1 = smOk
  · simp [hok, Outcome.Told, answerAndWakeup, replyWithMessage, hl]
  · simp [hok, Outcome.Told, answerFailed, answer, replyWithMessage, hl]

theorem add_answered {p : FaultStore × Bool} (hp : (faults srv).addOne l t.key = some p) :
    Answered srv l (.add t.key 1) (p.map id .done) := by
  intro uid now
  have hone : Decimal.string2Int (Decimal.ofInt 1) = some 1 := by decide +kernel
  simp only [FaultStore.addOne, faults] at hp
  simp only [requestHandler, StoreOp.message, addHandler, gt_iff_lt, if_neg (not_lt.mpr hkey),
    hone, ne_eq, not_true_eq_false, if_false, addKey, executeAdd, zero_lt_one, if_true,
    executeHandle, handlers, bind_some, faults]
  by_cases hok : (srv.handler.addRankInfoMap l t.key).1 = smOk
  · simp only [hok, ne_eq, not_true_eq_false, if_false] at hp ⊢
    cases hold : srv.backend t.key with
    | none =>
      rw [hold] at hp
      rw [← some.inj hp]
      simp [Outcome.Told, answerAndWakeup, replyWithMessage, hl]
    | some oldValue =>
      simp only [hold, FaultStore.sumText] at hp ⊢
      cases hread : Decimal.string2Int oldValue with
      | none =>
        simp only [hread, map_some, some.injEq] at hp
        rw [← hp]
        simp [Outcome.Told, answer, replyWithMessage, hl]
      | some storedValueNum =>
        simp only [hread] at hp ⊢
        by_cases hnum : storedValueNum = 0 ∧ oldValue ≠ Bytes.ofString "0"
        · rw [if_pos hnum, map_some] at hp
          rw [if_pos hnum, ← some.inj hp]
          simp [Outcome.Told, answer, replyWithMessage, hl]
        rw [if_neg hnum] at hp ⊢
        by_cases hsum : Decimal.InInt64 (storedValueNum + 1)
        · rw [if_neg (not_not.mpr hsum), map_some] at hp
          rw [if_neg (not_not.mpr hsum), ← some.inj hp]
          simp [Outcome.Told, answerAndWakeup, replyWithMessage, hl]
        · rw [if_pos hsum] at hp
          cases hp
  · simp only [hok, ne_eq, not_false_eq_true, if_true, some.injEq] at hp ⊢
    rw [← hp]
    simp [Outcome.Told, answerFailed, answer, replyWithMessage, hl]

theorem append_answered {value : Bytes} {p : FaultStore × Option ℕ}
    (hp : (faults srv).append l t.key value = some p) :
    Answered srv l (.append t.key value) (p.map id .appended) := by
  intro uid now
  rw [FaultStore.append] at hp
  obtain ⟨e, he, rfl⟩ := map_eq_some_iff.mp hp
  simp only [faults] at he
  -- A key that is appended to for the first time wakes its waiters.
  cases hold : srv.backend t.key <;>
    simp only [hold, getD_none, getD_some, nil_append] at he <;>
    simp only [requestHandler, StoreOp.message, appendHandler, gt_iff_lt,
      if_neg (not_lt.mpr hkey), appendKey, executeHandle, handlers, faults, hold, he, map_some,
      some.injEq, exists_eq_left', getD_none, getD_some, nil_append] <;>
    split <;> simp_all [Outcome.Told, answerAndWakeup, answerFailed, answer, replyWithMessage]

theorem write_answered {value : Bytes} {offset : ℕ} {p : FaultStore × Bool}
    (hp : (faults srv).write l t.key value offset = some p) :
    Answered srv l (.write t.key offset value) (p.map id .done) := by
  intro uid now
  have hlen4 : (Bytes.le 4 offset).length = 4 := rfl
  have hlength : ¬ (Bytes.le 4 offset ++ value).length < 4 := by
    rw [length_append, hlen4]
    omega
  have hdata : writeData (Bytes.le 4 offset ++ value) = value := drop_left' hlen4
  simp only [FaultStore.write] at hp
  simp only [requestHandler, StoreOp.message, writeHandler, gt_iff_lt, if_neg (not_lt.mpr hkey),
    if_neg hlength]
  by_cases hrange : writeInRange (Bytes.le 4 offset ++ value)
  · simp only [hrange, not_true_eq_false, if_false] at hp ⊢
    obtain ⟨e, he, rfl⟩ := map_eq_some_iff.mp hp
    simp only [faults] at he
    have hmade : (writeCreate srv.backend t.key
        (writeOffset (Bytes.le 4 offset ++ value) + value.length)).1 = .success := by
      rw [writeCreate]
      split <;> rfl
    simp only [writeKey, hdata, hmade, executeHandle, handlers, he, map_some, ne_eq,
      not_true_eq_false, if_false, some.injEq, exists_eq_left', faults]
    by_cases hok : e.1 = smOk
    · simp [hok, Outcome.Told, answer, replyWithMessage, hl]
    · simp [hok, Outcome.Told, answerFailed, answer, replyWithMessage, hl]
  · simp only [hrange, not_false_eq_true, if_true] at hp ⊢
    rw [← some.inj hp]
    exact ⟨_, rfl, rfl, by simp [Outcome.Told, silent]⟩

end Requests

/-- The server simulates every step of the clients that involves it. -/
theorem server_simulates (srv : Server FaultHandler) {l : ℕ} (hl : l ∈ srv.established) :
    (∀ name r q p, (q.op name r).message.WithinLimits → (faults srv).perform l name r q = some p →
      ∀ uid now, ∃ a, srv.handle handlers (requestOf uid l (q.op name r) now) = some a ∧
        faults a.server = p.1 ∧ p.2.Told ⟨uid, l, 0⟩ a.replies.head?) ∧
    (srv.backend (rankingKey autoRankingStr l) = none →
      ∃ a, srv.handle handlers (.broken l) = some a ∧ faults a.server = (faults srv).clear l) := by
  refine ⟨fun name r q p hfit hp uid now => ?_, fun hrank => ?_⟩
  · have hmem : (q.target name r).key ∈ (q.op name r).message.keys := by
      cases q <;> exact mem_cons_self
    have hkey := hfit.keySize _ hmem
    have hanswered : Answered srv l (q.op name r) p := by
      cases q with
      | getRank | getSlot k => exact some.inj hp ▸ get_answered hl hkey
      | setRank rankId => exact some.inj hp ▸ set_answered hl hkey _
      | addCount k =>
        rw [FaultStore.perform, map_eq_some_iff] at hp
        obtain ⟨p, hp, rfl⟩ := hp
        exact add_answered hl hkey hp
      | appendRanks cfg | appendRecord k rec =>
        rw [FaultStore.perform, map_eq_some_iff] at hp
        obtain ⟨p, hp, rfl⟩ := hp
        exact append_answered hl hkey hp
      | writeRanks slot cfg | writeRecord k slot rec =>
        rw [FaultStore.perform, map_eq_some_iff] at hp
        obtain ⟨p, hp, rfl⟩ := hp
        exact write_answered hl hkey hp
    rw [requestOf, Server.handle, receiveMessage, unpack_pack hfit]
    exact hanswered uid now
  · rw [Server.handle, if_pos hl, linkBrokenHandler, hrank]
    exact ⟨_, rfl, rfl⟩

/-- The SET with which a client registers its rank: it is accepted, and the fault handler
remembers the rank. -/
theorem server_simulates_first_set :
    ∃ a, Server.handle handlers { Server.init 1 FaultHandler.init with established := {1} }
        (requestOf 0 1 (Request.op [97] .sender (.setRank 7)) 0) = some a ∧
      a.server.handler.linkIdToRankInfoMap 1 = some (.new 7 (TransKey.rank [97]).key) ∧
      a.replies.head?.map Reply.code = some .success := by
  obtain ⟨a, ha, hfaults, htold⟩ := (server_simulates
    { Server.init 1 FaultHandler.init with established := {1} } (Finset.mem_singleton_self 1)).1
    [97] .sender (.setRank 7) _ ⟨by decide, by decide, by decide, by decide, by decide⟩ rfl 0 0
  refine ⟨a, ha, ?_, htold.mpr (by decide)⟩
  rw [show a.server.handler = (faults a.server).handler from rfl, hfaults]
  decide +kernel

end Trans
