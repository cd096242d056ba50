/-
The configuration store refines a sequential map.

With the local memory backend and nothing registered from outside, every request changes the
backend and answers its client as the operation on the sequential map does: `serve_refines`, for
any sequence of requests from any state of the server.  Replies that wake blocked GETs come
after the reply to the requester.

The requests considered (`Admissible`) have keys within the length limit and outside the ranking
keys; a GET does not block, the operand and sum of an ADD are 64-bit numbers, and a WRITE passes
the range check.
-/
import MemFabric.Handlers
import MemFabric.SequentialMap

namespace ConfigStore

open Function List Option Backend SeqMap Decimal

variable {H : Type}

/-! ### Requests and replies -/

def Outcome.encode : Outcome → StoreErrorCode × Bytes
  | done => (.success, Bytes.ofString "success")
  | found value => (.success, pack { mt := .get, values := [value] })
  | notFound => (.notExist, Bytes.ofString "<not exist>")
  | number z => (.success, Decimal.ofInt z)
  | rejected => (.invalidMessage, Bytes.ofString "oldValueStr should be a number.")
  | missing => (.notExist, Bytes.ofString "not exist")
  | length n => (.success, Decimal.ofNat n)
  | previous value => (.success, pack { mt := .cas, values := [value] })

def StoreOp.key : StoreOp → Key
  | set key _ | get key _ | add key _ | remove key | append key _ | cas key _ _
  | write key _ _ => key

theorem SeqMap.apply_of_ne (m : SeqMap) (op : StoreOp) {key : Key} (h : key ≠ op.key) :
    (m.apply op).1 key = m key := by
  cases op with
  | set k value => exact update_of_ne h ..
  | get k timeoutMs =>
    simp only [apply, get]
    split <;> rfl
  | add k z =>
    simp only [apply, add]
    split
    · exact update_of_ne h ..
    split
    · rfl
    · exact update_of_ne h ..
  | remove k =>
    simp only [apply, remove_fst]
    exact update_of_ne h ..
  | append k value => exact update_of_ne h ..
  | cas k expect value =>
    simp only [apply, cas]
    split
    · exact update_of_ne h ..
    · rfl
  | write k offset data => exact update_of_ne h ..

/-- The requests that are considered, in the state they meet. -/
def Admissible (m : SeqMap) (op : StoreOp) : Prop :=
  op.key.length ≤ maxKeyLenServer ∧ autoRankingStr.isPrefixOf op.key = false ∧
    match op with
    | .get key timeoutMs => m key ≠ none ∨ timeoutMs = 0
    | .add key increment => Decimal.InInt64 increment ∧ ∀ text z, m key = some text →
        storedNumber text = some z → Decimal.InInt64 (z + increment)
    | .write _ offset data => offset < 2 ^ 32 ∧ writeInRange (Bytes.le 4 offset ++ data)
    | .set _ _ | .remove _ | .append _ _ | .cas _ _ _ => True

def AdmissibleAll (m : SeqMap) : List StoreOp → Prop
  | [] => True
  | op :: ops => Admissible m op ∧ AdmissibleAll (m.apply op).1 ops

structure Request where
  ctx : ReqCtx
  op : StoreOp
  now : ℤ

/-- Serve requests one after the other: the final server and the replies of each. -/
def serve (s : Server H) : List Request → Option (Server H × List (List Reply))
  | [] => some (s, [])
  | q :: qs => do
    let a ← requestHandler (noHandlers H) s q.ctx q.op.message q.now
    let r ← serve a.server qs
    some (r.1, a.replies :: r.2)

/-- The replies that the outcomes on the map stand for. -/
def expectedReplies (qs : List Request) (outcomes : List Outcome) : List Reply :=
  List.zipWith (fun q o => ⟨q.ctx, o.encode.1, o.encode.2⟩) qs outcomes

/-! ### WRITE, byte by byte -/

theorem getElem?_grown {old : Bytes} {k i : ℕ} (hi : i < old.length + k) :
    (old ++ List.replicate k (0 : UInt8))[i]? = some (old.getD i 0) := by
  by_cases hlt : i < old.length
  · rw [getElem?_append_left hlt, getElem?_eq_getElem hlt, getD_eq_getElem _ _ hlt]
  · rw [getElem?_append_right (by omega), getElem?_replicate_of_lt (by omega),
      getD_eq_default _ _ (by omega)]

theorem getElem?_written {old : Bytes} {offset : ℕ} {data : Bytes} {i : ℕ}
    (hi : i < max old.length (offset + data.length)) :
    (SeqMap.written old offset data)[i]? = some
      (if offset ≤ i ∧ i < offset + data.length then data.getD (i - offset) 0
        else old.getD i 0) := by
  rw [written, getElem?_map, getElem?_range hi, map_some]

theorem overlay_eq_written (old : Bytes) (offset : ℕ) (data : Bytes) :
    overlay old offset data = SeqMap.written old offset data := by
  have hlen := length_overlay old offset data
  have hcur : offset ≤
      (old ++ replicate (offset + data.length - old.length) (0 : UInt8)).length := by
    simp only [length_append, length_replicate]
    omega
  refine ext_getElem? fun i => ?_
  by_cases hi : i < max old.length (offset + data.length)
  · rw [getElem?_written hi, overlay]
    by_cases hlo : i < offset
    · -- In front of the data.
      rw [if_neg (by omega), append_assoc, getElem?_append_left (by simp only [length_take]; omega),
        getElem?_take_of_lt hlo, getElem?_grown (by omega)]
    rw [append_assoc, getElem?_append_right (by simp only [length_take]; omega),
      length_take, Nat.min_eq_left hcur]
    by_cases hmid : i < offset + data.length
    · rw [if_pos ⟨by omega, hmid⟩, getElem?_append_left (by omega),
        getElem?_eq_getElem (by omega), getD_eq_getElem _ _ (by omega)]
    -- Behind the data.
    rw [if_neg (by omega), getElem?_append_right (by omega), getElem?_drop,
      ← getElem?_grown (k := offset + data.length - old.length) (by omega)]
    congr 1
    omega
  · rw [getElem?_eq_none (by omega), getElem?_eq_none]
    simp only [written, length_map, length_range]
    omega

theorem written_replicate (offset : ℕ) (data : Bytes) :
    SeqMap.written (List.replicate (offset + data.length) 0) offset data =
      SeqMap.written [] offset data := by
  refine ext_getElem? fun i => ?_
  by_cases hi : i < offset + data.length
  · rw [getElem?_written (by simp only [length_replicate]; omega),
      getElem?_written (by simp only [length_nil]; omega)]
    simp only [getD_eq_getElem?_getD, getElem?_replicate, if_pos hi, getElem?_nil,
      getD_some, getD_none]
  rw [getElem?_eq_none, getElem?_eq_none]
  · simp only [written, length_map, length_range, length_nil]
    omega
  · simp only [written, length_map, length_range, length_replicate]
    omega

/-! ### One request -/

/-- What the server did for a request matches the operation on the map. -/
structure Refines (s : Server H) (ctx : ReqCtx) (op : StoreOp) (a : Answer H) : Prop where
  backend : a.server.backend = (SeqMap.apply s.backend op).1
  established : a.server.established = s.established
  replies : ∃ woken, a.replies =
      ⟨ctx, (SeqMap.apply s.backend op).2.encode.1, (SeqMap.apply s.backend op).2.encode.2⟩ :: woken ∧
    ((∀ key, s.waiters.keyWaiters key = none) → woken = [] ∧ a.server.waiters = s.waiters)

section Step

variable {s : Server H} {ctx : ReqCtx} {op : StoreOp}

@[simp] theorem executeHandle_noHandlers (s : Server H) (mt : MessageType) (linkId : ℕ)
    (key : Key) (value : Bytes) :
    executeHandle (noHandlers H) s mt linkId key value = some (smOk, value, s.handler) := by
  simp [executeHandle, noHandlers]

variable {key : Key} {m : SmemMessage}

theorem takeKeyWaiters_of_none {t : Waiters} (h : t.keyWaiters key = none) :
    t.takeKeyWaiters key = (t, []) := by
  rw [Waiters.takeKeyWaiters, h]

section

variable (hlink : ctx.linkId ∈ s.established)
include hlink

theorem replyWithMessage_of_established (code : StoreErrorCode) (message : Bytes) :
    replyWithMessage s ctx code message = [⟨ctx, code, message⟩] := by
  rw [replyWithMessage, if_pos hlink]

theorem Refines.answer {b : Backend} {o : Outcome} (ret : ℤ)
    (hop : SeqMap.apply s.backend op = (b, o)) :
    Refines s ctx op (answer { s with backend := b } ctx ret o.encode.1 o.encode.2) := by
  refine ⟨by rw [hop]; rfl, rfl, [], ?_, fun _ => ⟨rfl, rfl⟩⟩
  rw [hop]
  exact replyWithMessage_of_established hlink _ _

theorem Refines.wakeup {b : Backend} {o : Outcome}
    (key : Key) (value : Bytes) (hop : SeqMap.apply s.backend op = (b, o)) :
    Refines s ctx op (answerAndWakeup
      { s with waiters := (s.waiters.takeKeyWaiters key).1, backend := b } ctx o.encode.1
      o.encode.2 (s.waiters.takeKeyWaiters key).2 value) := by
  refine ⟨by rw [hop]; rfl, rfl, wakeupWaiters s (s.waiters.takeKeyWaiters key).2 value, ?_, ?_⟩
  · rw [hop]
    show replyWithMessage s ctx _ _ ++ _ = _
    rw [replyWithMessage_of_established hlink, singleton_append]
    rfl
  · intro hnone
    rw [takeKeyWaiters_of_none (hnone key)]
    exact ⟨rfl, rfl⟩

theorem set_refines (value : Bytes) (hlen : key.length ≤ maxKeyLenServer) :
    ∃ a, setHandler (noHandlers H) s ctx (StoreOp.set key value).message = some a ∧
      Refines s ctx (.set key value) a := by
  have hop : apply s.backend (.set key value) = (update s.backend key (some value), .done) := rfl
  simp only [setHandler, StoreOp.message, if_neg (not_lt.mpr hlen), setKey,
    executeHandle_noHandlers, map_some, some.injEq, exists_eq_left', ne_eq, not_true_eq_false,
    if_false, put_fst, if_true]
  by_cases hkey : s.backend.exist key = .success
  · simp only [hkey, not_true_eq_false, if_false, answerAndWakeup_nil]
    exact Refines.answer hlink smOk hop
  · simp only [hkey, not_false_eq_true, if_true]
    exact Refines.wakeup hlink key value hop

end

theorem getKey_present {value : Bytes} (now : ℤ) (hkey : s.backend key = some value) :
    getKey (noHandlers H) s ctx m key now =
      some (answer s ctx smOk .success (pack { mt := m.mt, values := [value] })) := by
  rw [getKey, hkey]

theorem getKey_absent (now : ℤ) (hkey : s.backend key = none) (hzero : m.userDef = 0) :
    getKey (noHandlers H) s ctx m key now =
      some (answer s ctx smError .notExist (Bytes.ofString "<not exist>")) := by
  have hne : smOk ≠ smGetObject := by decide
  rw [getKey, hkey]
  simp only [executeHandle_noHandlers, bind_some, hne, if_false, hzero, if_true]

section

variable (hlink : ctx.linkId ∈ s.established)
include hlink

theorem get_refines {timeoutMs : ℤ} (now : ℤ) (hadm : Admissible s.backend (.get key timeoutMs)) :
    ∃ a, getHandler (noHandlers H) s ctx (StoreOp.get key timeoutMs).message now = some a ∧
      Refines s ctx (.get key timeoutMs) a := by
  obtain ⟨hlen, hpre, hget⟩ := hadm
  have hlen' : ¬ key.length > maxKeyLenServer := not_lt.mpr hlen
  have hpre' : ¬ autoRankingStr.isPrefixOf key = true := Bool.eq_false_iff.mp hpre
  simp only [getHandler, StoreOp.message, if_neg hlen', if_neg hpre']
  cases hkey : s.backend key with
  | some value =>
    have hop : SeqMap.apply s.backend (.get key timeoutMs) = (s.backend, .found value) := by
      simp only [SeqMap.apply, SeqMap.get, hkey]
    exact ⟨_, getKey_present now hkey, Refines.answer hlink smOk hop⟩
  | none =>
    have hop : SeqMap.apply s.backend (.get key timeoutMs) = (s.backend, .notFound) := by
      simp only [SeqMap.apply, SeqMap.get, hkey]
    exact ⟨_, getKey_absent now hkey (hget.resolve_left fun h => h hkey),
      Refines.answer hlink smError hop⟩

theorem add_refines {increment : ℤ} (hadm : Admissible s.backend (.add key increment)) :
    ∃ a, addHandler (noHandlers H) s ctx (StoreOp.add key increment).message = some a ∧
      Refines s ctx (.add key increment) a := by
  obtain ⟨hlen, -, hinc, hsum⟩ := hadm
  have hlen' : ¬ key.length > maxKeyLenServer := not_lt.mpr hlen
  have hexec : executeAdd (noHandlers H) s ctx.linkId key (ofInt increment) increment =
      some (smOk, ofInt increment, s.handler) := by
    rw [executeAdd, executeHandle_noHandlers, ite_self]
  simp only [addHandler, StoreOp.message, if_neg hlen', string2Int_ofInt hinc, ne_eq,
    not_true_eq_false, if_false, addKey, hexec, bind_some, put_fst, put_snd]
  cases hkey : s.backend key with
  | none =>
    have hop : apply s.backend (.add key increment) =
        (update s.backend key (some (ofInt increment)), .number increment) := by
      simp only [apply, add, hkey]
    exact ⟨_, rfl, Refines.wakeup hlink key _ hop⟩
  | some text =>
    dsimp only
    cases hread : string2Int text with
    | none =>
      have hop : apply s.backend (.add key increment) = (s.backend, .rejected) := by
        simp only [apply, add, hkey, storedNumber, hread, filter_none]
      exact ⟨_, rfl, Refines.answer hlink smError hop⟩
    | some z =>
      dsimp only
      by_cases hz : z = 0 ∧ text ≠ Bytes.ofString "0"
      · have hnum : storedNumber text = none := by
          simp [storedNumber, hread, filter_some, hz.1, hz.2]
        have hop : apply s.backend (.add key increment) = (s.backend, .rejected) := by
          simp only [apply, add, hkey, hnum]
        rw [if_pos hz]
        exact ⟨_, rfl, Refines.answer hlink smError hop⟩
      have hnum : storedNumber text = some z := by
        have hz' : z ≠ 0 ∨ text = Bytes.ofString "0" := by tauto
        simp only [storedNumber, hread, filter_some, hz', decide_true, if_true]
      have hop : apply s.backend (.add key increment) =
          (update s.backend key (some (ofInt (z + increment))), .number (z + increment)) := by
        simp only [apply, add, hkey, hnum]
      rw [if_neg hz, if_neg (not_not.mpr (hsum text z hkey hnum)), answerAndWakeup_nil]
      exact ⟨_, rfl, Refines.answer hlink smOk hop⟩

theorem remove_refines (hlen : key.length ≤ maxKeyLenServer) :
    Refines s ctx (.remove key) (removeHandler s ctx (StoreOp.remove key).message) := by
  simp only [removeHandler, StoreOp.message, if_neg (not_lt.mpr hlen)]
  cases hkey : s.backend key with
  | some value =>
    have hexist : s.backend.exist key = .success := by simp [exist, hkey]
    have hop : apply s.backend (.remove key) = (update s.backend key none, .done) := by
      simp only [apply, remove, hkey]
    rw [if_pos hexist]
    exact Refines.answer hlink smOk hop
  | none =>
    have hexist : ¬ s.backend.exist key = .success := by simp [exist, hkey]
    have hop : apply s.backend (.remove key) = (s.backend, .missing) := by
      simp only [apply, remove, hkey]
    rw [if_neg hexist]
    exact Refines.answer hlink smOk hop

theorem append_refines (value : Bytes) (hlen : key.length ≤ maxKeyLenServer) :
    ∃ a, appendHandler (noHandlers H) s ctx (StoreOp.append key value).message = some a ∧
      Refines s ctx (.append key value) a := by
  simp only [appendHandler, StoreOp.message, if_neg (not_lt.mpr hlen), appendKey,
    executeHandle_noHandlers, map_some, some.injEq, exists_eq_left', ne_eq, not_true_eq_false,
    if_false]
  cases hkey : s.backend key with
  | some old =>
    have hop : apply s.backend (.append key value) =
        (update s.backend key (some (old ++ value)), .length (old ++ value).length) := by
      simp only [apply, append, hkey, getD_some]
    simp only [answerAndWakeup_nil]
    exact Refines.answer hlink smOk hop
  | none =>
    have hop : apply s.backend (.append key value) =
        (update s.backend key (some value), .length value.length) := by
      simp only [apply, append, hkey, getD_none, nil_append]
    exact Refines.wakeup hlink key value hop

theorem cas_refines (expect value : Bytes) (hlen : key.length ≤ maxKeyLenServer) :
    Refines s ctx (.cas key expect value)
      (casHandler s ctx (StoreOp.cas key expect value).message) := by
  simp only [casHandler, StoreOp.message, if_neg (not_lt.mpr hlen), casKey]
  cases hkey : s.backend key with
  | some old =>
    simp only [answerAndWakeup_nil]
    by_cases heq : expect = old
    · have hop : apply s.backend (.cas key expect value) =
          (update s.backend key (some value), .previous old) := by
        simp only [apply, cas, hkey, getD_some, heq, if_true]
      simp only [if_pos heq]
      exact Refines.answer hlink smOk hop
    have hop : apply s.backend (.cas key expect value) = (s.backend, .previous old) := by
      simp only [apply, cas, hkey, getD_some, Ne.symm heq, if_false]
    simp only [if_neg heq]
    exact Refines.answer hlink smOk hop
  | none =>
    by_cases heq : expect = []
    · have hop : apply s.backend (.cas key expect value) =
          (update s.backend key (some value), .previous []) := by
        simp only [apply, cas, hkey, getD_none, heq, if_true]
      simp only [if_pos heq]
      exact Refines.wakeup hlink key value hop
    have hop : apply s.backend (.cas key expect value) = (s.backend, .previous []) := by
      simp only [apply, cas, hkey, getD_none, Ne.symm heq, if_false]
    simp only [if_neg heq, answerAndWakeup_nil]
    exact Refines.answer hlink smOk hop

theorem write_refines {offset : ℕ} {data : Bytes}
    (hadm : Admissible s.backend (.write key offset data)) :
    ∃ a, writeHandler (noHandlers H) s ctx (StoreOp.write key offset data).message = some a ∧
      Refines s ctx (.write key offset data) a := by
  obtain ⟨hlen, -, hoff, hrange⟩ := hadm
  have hlen' : ¬ key.length > maxKeyLenServer := not_lt.mpr hlen
  have hsize : ¬ (Bytes.le 4 offset ++ data).length < 4 := by
    rw [length_append, Bytes.le_length]
    omega
  have hoffset : writeOffset (Bytes.le 4 offset ++ data) = offset := by
    rw [writeOffset, take_left' (Bytes.le_length 4 offset), Bytes.leValue_le_of_lt]
    exact hoff
  have hdata : writeData (Bytes.le 4 offset ++ data) = data := by
    rw [writeData, drop_left' (Bytes.le_length 4 offset)]
  have hop : apply s.backend (.write key offset data) = (update s.backend key
        (some (written ((s.backend key).getD []) offset data)), .done) := rfl
  simp only [writeHandler, StoreOp.message, if_neg hlen', if_neg hsize, hrange, not_true_eq_false,
    if_false, writeKey, hoffset, hdata]
  cases hkey : s.backend key with
  | some old =>
    rw [hkey, getD_some] at hop
    simp only [writeCreate, hkey, ne_eq, not_true_eq_false, if_false, executeHandle_noHandlers,
      map_some, some.injEq, exists_eq_left', put_fst, put_snd, getD_some, overlay_eq_written]
    exact Refines.answer hlink smOk hop
  | none =>
    rw [hkey, getD_none] at hop
    simp only [writeCreate, hkey, ne_eq, not_true_eq_false, if_false, executeHandle_noHandlers,
      map_some, some.injEq, exists_eq_left', put_fst, put_snd, update_self, update_idem,
      getD_some, overlay_eq_written, written_replicate]
    exact Refines.answer hlink smOk hop

theorem requestHandler_refines (now : ℤ) (hadm : Admissible s.backend op) :
    ∃ a, requestHandler (noHandlers H) s ctx op.message now = some a ∧ Refines s ctx op a := by
  cases op with
  | set key value => exact set_refines hlink value hadm.1
  | get key timeoutMs => exact get_refines hlink now hadm
  | add key increment => exact add_refines hlink hadm
  | remove key => exact ⟨_, rfl, remove_refines hlink hadm.1⟩
  | append key value => exact append_refines hlink value hadm.1
  | cas key expect value => exact ⟨_, rfl, cas_refines hlink expect value hadm.1⟩
  | write key offset data => exact write_refines hlink hadm

end

end Step

/-! ### Sequences of requests -/

/-- Any admissible requests, from any state of the server, change the backend and are answered as
the operations on the sequential map. -/
theorem serve_refines (s : Server H) (qs : List Request)
    (hlinks : ∀ q ∈ qs, q.ctx.linkId ∈ s.established)
    (hadm : AdmissibleAll s.backend (qs.map Request.op)) :
    ∃ s' replies, serve s qs = some (s', replies) ∧
      s'.backend = (SeqMap.applyAll s.backend (qs.map Request.op)).1 ∧
      replies.map List.head? =
        (expectedReplies qs (SeqMap.applyAll s.backend (qs.map Request.op)).2).map some ∧
      ((∀ key, s.waiters.keyWaiters key = none) → replies =
        (expectedReplies qs (SeqMap.applyAll s.backend (qs.map Request.op)).2).map fun r => [r]) := by
  induction qs generalizing s with
  | nil => exact ⟨s, [], rfl, rfl, rfl, fun _ => rfl⟩
  | cons q qs ih =>
    obtain ⟨hop, hrest⟩ := hadm
    obtain ⟨a, ha, hbackend, hest, woken, hreply, hquiet⟩ :=
      requestHandler_refines (hlinks q mem_cons_self) q.now hop
    have hlinks' : ∀ q' ∈ qs, q'.ctx.linkId ∈ a.server.established := by
      intro q' hq'
      rw [hest]
      exact hlinks q' (mem_cons_of_mem q hq')
    obtain ⟨s', replies, hserve, hback', hhead, hquiet'⟩ := ih a.server hlinks' (hbackend ▸ hrest)
    refine ⟨s', a.replies :: replies, ?_, ?_, ?_, fun hnone => ?_⟩
    · simp only [serve, ha, bind_eq_bind, bind_some, hserve]
    · rw [hback', hbackend]
      rfl
    · rw [map_cons, hhead, hreply, hbackend]
      rfl
    obtain ⟨hwoken, hwait⟩ := hquiet hnone
    rw [hquiet' (hwait ▸ hnone), hreply, hwoken, hbackend]
    rfl

/-- Five operations on one key and a WRITE behind a gap, on a fresh server. -/
theorem serve_refines_six :
    ∃ s' replies, serve { Server.init 2 () with established := {1} }
        [⟨⟨0, 1, 0⟩, .add [107] 5, 0⟩, ⟨⟨1, 1, 1⟩, .append [107] [48], 0⟩,
          ⟨⟨2, 1, 2⟩, .cas [107] [53, 48] [120], 0⟩, ⟨⟨3, 1, 3⟩, .get [107] (-1), 0⟩,
          ⟨⟨4, 1, 4⟩, .remove [107], 0⟩, ⟨⟨5, 1, 5⟩, .write [106] 2 [7], 0⟩] = some (s', replies) ∧
      s'.backend [107] = none ∧ s'.backend [106] = some [0, 0, 7] := by
  obtain ⟨s', replies, hserve, hback, -⟩ := serve_refines { Server.init 2 () with established := {1} }
    [⟨⟨0, 1, 0⟩, .add [107] 5, 0⟩, ⟨⟨1, 1, 1⟩, .append [107] [48], 0⟩,
      ⟨⟨2, 1, 2⟩, .cas [107] [53, 48] [120], 0⟩, ⟨⟨3, 1, 3⟩, .get [107] (-1), 0⟩,
      ⟨⟨4, 1, 4⟩, .remove [107], 0⟩, ⟨⟨5, 1, 5⟩, .write [106] 2 [7], 0⟩]
    (by simp) ⟨⟨by decide, by decide, by decide, fun _ _ h => absurd h (by decide +revert)⟩,
      ⟨by decide, by decide, trivial⟩, ⟨by decide, by decide, trivial⟩,
      ⟨by decide, by decide, .inl (by decide)⟩, ⟨by decide, by decide, trivial⟩,
      ⟨by decide, by decide, by decide, by decide⟩, trivial⟩
  exact ⟨s', replies, hserve, by rw [hback]; decide, by rw [hback]; decide⟩

end ConfigStore
