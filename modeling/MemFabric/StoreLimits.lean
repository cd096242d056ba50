/-
What can be stored and what can be read back.

A request is limited in size by `AllocIfNeed` of the receiving link and by `Unpack`.  A GET sends
the stored value back in one reply, which meets the same limits at the client, but nobody limits
the size of a value that was put together from many requests.  `Readable` says that a GET of any
stored key is answered with a reply that the client accepts.
-/
import MemFabric.GatherFormat
import MemFabric.GroupKeys
import MemFabric.LinkReceive
import MemFabric.MessageCodec
import MemFabric.StoreSystem

namespace ConfigStore

open List Function Option

open AccLinks (maxRecvBodyLen)

variable {H : Type}

/-! ### The client's side of a GET -/

/-- What `GetReal` makes of the body of a reply.  The link receives it into its buffer first. -/
def receiveValue (data : AccLinks.DataBuffer) (body : Bytes) : Option Bytes :=
  match data.allocIfNeed body.length with
  | none => none
  | some _ =>
    match unpack body with
    | .error _ => none
    | .ok (responseBody, _) => responseBody.values.head?

/-- The longest value that fits into the body of a reply. -/
def maxReadable : ℕ := maxRecvBodyLen - (baseSize + 8)

theorem maxReadable_add : maxReadable + (baseSize + 8) = maxRecvBodyLen := by decide

theorem length_pack_value (mt : MessageType) (value : Bytes) :
    (pack { mt := mt, values := [value] }).length = baseSize + 8 + value.length := by
  rw [length_pack, packedSize]
  simp only [map_nil, sum_nil, map_cons, sum_cons]
  omega

variable {m : SmemMessage} {reg : Registered H} {s : Server H} {value : Bytes}

theorem unpack_pack (h : m.WithinLimits) : unpack (pack m) = .ok (m, (pack m).length) := by
  refine unpack_eq_ok_iff.mpr ⟨h, rfl, ?_⟩
  rw [Records.Holds, drop_zero, take_length]

theorem receiveValue_pack (data : AccLinks.DataBuffer) (mt : MessageType) (value : Bytes) :
    receiveValue data (pack { mt := mt, values := [value] }) =
      if value.length ≤ maxReadable then some value else none := by
  have hmax := maxReadable_add
  rw [receiveValue, AccLinks.DataBuffer.allocIfNeed, length_pack_value]
  by_cases hlen : value.length ≤ maxReadable
  · have hlimits : SmemMessage.WithinLimits { mt := mt, values := [value] } := by
      refine ⟨by norm_num, Nat.zero_le _, by simp, Nat.le_of_ble_eq_true rfl, ?_⟩
      intro v hv
      rw [mem_singleton.mp hv]
      exact hlen.trans (by decide)
    rw [if_pos hlen, if_neg (by omega), unpack_pack hlimits]
    split
    next hnone => split at hnone <;> cases hnone
    next => rfl
  · rw [if_neg hlen, if_pos (by omega)]

/-! ### Requests that store -/

/-- A SET, APPEND or WRITE that reaches the server and is answered with SUCCESS, or a link
that connects. -/
def stores (reg : Registered H) (s : Server H) : Event → Bool
  | .connect _ _ => true
  | .request ctx (some body) now =>
    body.length ≤ maxRecvBodyLen && (match decoded (some body) with
        | none => false
        | some m => m.mt = .set || m.mt = .append || m.mt = .write) &&
      match s.handle reg (.request ctx (some body) now) with
      | none => false
      | some a => a.replies.any fun r => r.ctx = ctx ∧ r.code = .success
  | _ => false

/-- An APPEND and a WRITE keep the value readable.  A SET does so by itself, unless a
handler that is registered for it puts a longer value in its place. -/
def fits (reg : Registered H) (s : Server H) : Event → Bool
  | .request ctx body _ =>
    match decoded body with
    | some ⟨.set, _, [key], [value]⟩ =>
      (executeHandle reg s .set ctx.linkId key value).all fun e => e.2.1.length ≤ value.length
    | some ⟨.append, _, [key], [value]⟩ =>
      ((s.backend key).getD []).length + value.length ≤ maxReadable
    | some ⟨.write, _, [_], [value]⟩ =>
      writeOffset value + (writeData value).length ≤ maxReadable
    | _ => true
  | _ => true

/-- A GET of a stored key is answered, over every link, with a reply from which the client
takes the value.  Keys that begin as the ranking keys do are not looked up by GET. -/
def Readable (reg : Registered H) (s : Server H) : Prop :=
  ∀ key value, s.backend key = some value → autoRankingStr.isPrefixOf key = false →
    ∀ ctx : ReqCtx, ctx.linkId ∈ s.established → ∀ timeoutMs now : ℤ, ∃ a body,
      getHandler reg s ctx (StoreOp.get key timeoutMs).message now = some a ∧
        a.replies = [⟨ctx, .success, body⟩] ∧ ∀ data, receiveValue data body = some value

/-! ### Short values -/

/-- Keys and values are within the limits, apart from the ranking keys. -/
def Short (b : Backend) : Prop :=
  ∀ key value, b key = some value → autoRankingStr.isPrefixOf key = false →
    key.length ≤ maxKeyLenServer ∧ value.length ≤ maxReadable

theorem getHandler_present {key : Key} (hkey : s.backend key = some value)
    (hlen : key.length ≤ maxKeyLenServer) (hrank : autoRankingStr.isPrefixOf key = false)
    (ctx : ReqCtx) (timeoutMs now : ℤ) :
    getHandler reg s ctx (StoreOp.get key timeoutMs).message now =
      some (answer s ctx smOk .success (pack { mt := .get, values := [value] })) := by
  rw [getHandler]
  simp only [StoreOp.message]
  rw [if_neg (by omega), hrank, if_neg (by decide), getKey, hkey]

theorem Short.readable (h : Short s.backend) : Readable reg s := by
  intro key value hkey hrank ctx hlink timeoutMs now
  obtain ⟨hlen, hvalue⟩ := h key value hkey hrank
  refine ⟨_, pack { mt := .get, values := [value] },
    getHandler_present hkey hlen hrank ctx timeoutMs now, ?_, fun data => ?_⟩
  · rw [answer, replyWithMessage, if_pos hlink]
  · rw [receiveValue_pack, if_pos hvalue]

theorem Short.update {b : Backend} (h : Short b) {key : Key}
    (hvalue : autoRankingStr.isPrefixOf key = false →
      key.length ≤ maxKeyLenServer ∧ value.length ≤ maxReadable) :
    Short (update b key (some value)) := by
  intro k v hk hrank
  by_cases hne : k = key
  · rw [hne, update_self, some_inj] at hk
    rw [hne] at hrank ⊢
    rw [← hk]
    exact hvalue hrank
  · rw [update_of_ne hne] at hk
    exact h k v hk hrank

section Handlers

variable {reg : Registered H} {s : Server H} {ctx : ReqCtx} {key : Key} {a : Answer H}

theorem Short.setKey (h : Short s.backend) (hkey : key.length ≤ maxKeyLenServer)
    (hfit : ∀ e, executeHandle reg s .set ctx.linkId key value = some e →
      e.2.1.length ≤ maxReadable) (ha : setKey reg s ctx key value = some a) :
    Short a.server.backend := by
  obtain ⟨e, he, rfl⟩ := map_eq_some_iff.mp ha
  dsimp only
  split
  · exact h
  · exact h.update fun _ => ⟨hkey, hfit e he⟩

theorem Short.appendKey (h : Short s.backend) (hkey : key.length ≤ maxKeyLenServer)
    (hfit : ((s.backend key).getD []).length + value.length ≤ maxReadable)
    (ha : appendKey reg s ctx key value = some a) : Short a.server.backend := by
  rw [ConfigStore.appendKey] at ha
  obtain ⟨e, -, rfl⟩ := map_eq_some_iff.mp ha
  cases hold : s.backend key with
  | some old =>
    rw [hold, getD_some, ← length_append] at hfit
    simp only
    split
    · exact h.update fun _ => ⟨hkey, hfit⟩
    · exact h.update fun _ => ⟨hkey, hfit⟩
  | none =>
    rw [hold, getD_none, length_nil, Nat.zero_add] at hfit
    simp only
    split
    · exact h.update fun _ => ⟨hkey, hfit⟩
    · exact h.update fun _ => ⟨hkey, hfit⟩

theorem Short.writeKey (h : Short s.backend) (hkey : key.length ≤ maxKeyLenServer)
    (hfit : writeOffset value + (writeData value).length ≤ maxReadable)
    (ha : writeKey reg s ctx key value = some a) : Short a.server.backend := by
  have hmade : Short (writeCreate s.backend key
      (writeOffset value + (writeData value).length)).2 := by
    rw [writeCreate]
    split
    · exact h.update fun _ => ⟨hkey, by rw [length_replicate]; exact hfit⟩
    · exact h
  rw [ConfigStore.writeKey] at ha
  dsimp only at ha
  split at ha
  · exact some_inj.mp ha ▸ hmade
  obtain ⟨e, -, rfl⟩ := map_eq_some_iff.mp ha
  split
  · exact hmade
  split
  all_goals
    refine hmade.update fun hrank => ⟨hkey, ?_⟩
    rw [length_overlay, max_le_iff]
    refine ⟨?_, hfit⟩
    generalize hold : (writeCreate s.backend key _).2 key = old
    cases old with
    | none => exact Nat.zero_le _
    | some old => exact (hmade key old hold hrank).2

end Handlers

theorem Short.linkConnectedHandler (h : Short s.backend) (linkId rankReq : ℕ) :
    Short (linkConnectedHandler s linkId rankReq).backend := by
  rw [ConfigStore.linkConnectedHandler]
  simp only
  split
  · exact h
  refine h.update fun hrank => ?_
  rw [rankingKey, isPrefixOf_append (by decide)] at hrank
  cases hrank

theorem length_le_of_decoded {body : Bytes} (hm : decoded (some body) = some m)
    (hbody : body.length ≤ maxRecvBodyLen) (hvalue : value ∈ m.values) :
    value.length ≤ maxReadable := by
  rw [decoded, map_some] at hm
  split at hm
  · rename_i m' n hunpack
    obtain ⟨-, -, hholds⟩ := unpack_eq_ok_iff.mp (some_inj.mp hunpack)
    obtain rfl := some_inj.mp hm
    have hle := hholds.le (ne_nil_of_length_pos (by rw [length_pack_eq]; omega))
    have hmem : 8 + value.length ≤ (m'.values.map fun v => 8 + v.length).sum :=
      single_le_sum (fun _ _ => Nat.zero_le _) _ (mem_map_of_mem hvalue)
    rw [length_pack, packedSize] at hle
    have hmax := maxReadable_add
    omega
  · cases hm

theorem short_step {e : Event} {a : Answer H} (h : Short s.backend)
    (hstores : stores reg s e = true) (hfits : fits reg s e = true) (ha : s.handle reg e = some a) :
    Short a.server.backend := by
  cases handle_cases ha with
  | connect linkId rankReq =>
    exact Short.linkConnectedHandler (s := { s with established := insert linkId s.established })
      h linkId rankReq
  | undecoded => exact h
  | request ctx body now m a hm hreq =>
    obtain _ | body := body
    · exact absurd hstores (by simp [stores])
    rw [stores, hm] at hstores
    rw [fits, hm] at hfits
    simp only [Bool.and_eq_true, Bool.or_eq_true, decide_eq_true_eq] at hstores
    obtain ⟨⟨hbody, hmt⟩, -⟩ := hstores
    cases requestHandler_cases hreq with
    | refused | silent => exact h
    | set hq hset =>
      obtain ⟨mt, userDef, keys, values⟩ := m
      obtain ⟨rfl, rfl, rfl, hkey⟩ := hq
      refine h.setKey hkey (fun e he => ?_) hset
      simp only [he, Option.all_some, decide_eq_true_eq] at hfits
      exact hfits.trans (length_le_of_decoded hm hbody mem_cons_self)
    | append hq happend =>
      obtain ⟨mt, userDef, keys, values⟩ := m
      obtain ⟨rfl, rfl, rfl, hkey⟩ := hq
      exact h.appendKey hkey (by simpa only [decide_eq_true_eq] using hfits) happend
    | write hq _ _ hwrite =>
      obtain ⟨mt, userDef, keys, values⟩ := m
      obtain ⟨rfl, rfl, rfl, hkey⟩ := hq
      exact h.writeKey hkey (by simpa only [decide_eq_true_eq] using hfits) hwrite
    | rank hq | get hq | add hq | remove hq | cas hq => simp [hq.mt] at hmt
    | watch hq | heartbeat hq => simp [hq] at hmt
  | broken | timer | rankState | checker => exact absurd hstores (by simp [stores])

/-- The stored keys are readable in every state that SET, APPEND and WRITE requests lead to, if no
value is appended to, or written at an offset, beyond `maxReadable` bytes. -/
theorem readable_of_fits {reg : Registered H} {worldSize : ℕ} {h : H} {s : Server H}
    (hs : (storeSystem reg worldSize h).ReachableBy
      (fun s e => stores reg s e = true ∧ fits reg s e = true) s) : Readable reg s := by
  have hshort : Short s.backend := by
    refine hs.invariant (I := fun s => Short s.backend) ?_ ?_
    · intro key value hkey
      exact absurd hkey (by simp [storeSystem, Server.init, Backend.clear])
    intro s s' e hs hok hnext
    obtain ⟨a, ha, rfl⟩ := map_eq_some_iff.mp hnext
    exact short_step hs hok.1 hok.2 ha
  exact hshort.readable

/-- A value that was set, appended to and written over. -/
theorem readable_after_write : ∃ s : Server Unit,
    (storeSystem (noHandlers Unit) 1 ()).Reachable s ∧ s.backend [107] = some [7, 9] ∧
      Readable (noHandlers Unit) s := by
  have hrun : (((storeSystem (noHandlers Unit) 1 ()).restrict
      fun s e => stores (noHandlers Unit) s e = true ∧ fits (noHandlers Unit) s e = true).run
        (Server.init 1 ()) [.connect 0 (2 ^ 32), requestOf 0 0 (.set [107] [7]) 0,
          requestOf 1 0 (.append [107] [8]) 0, requestOf 2 0 (.write [107] 1 [9]) 0]).map
        (fun s => s.backend [107]) = some (some [7, 9]) := by
    decide +kernel
  obtain ⟨s, hreach, hkey⟩ := TransitionSystem.exists_of_run_restrict hrun
  exact ⟨s, hreach.reachable, hkey, readable_of_fits hreach⟩

/-! ### All-gather -/

section Gather

open GroupEngine

variable {reg : Registered H} {s : Server H} {key : Key} {value : Bytes} {linkId : ℕ}

theorem decoded_append (hkey : key.length ≤ maxKeySize) (hvalue : value.length ≤ maxValueSize) :
    unpack (pack (StoreOp.append key value).message) =
      .ok ((StoreOp.append key value).message, (pack (StoreOp.append key value).message).length) := by
  refine unpack_pack ⟨by norm_num [StoreOp.message], ?_, ?_, ?_, ?_⟩
  · simp [StoreOp.message, maxKeyCount]
  · simpa [StoreOp.message] using hkey
  · simp [StoreOp.message, maxValueCount]
  · simpa [StoreOp.message] using hvalue

theorem length_pack_append :
    (pack (StoreOp.append key value).message).length = 50 + key.length + value.length := by
  rw [length_pack, packedSize]
  simp only [StoreOp.message, map_nil, sum_nil, map_cons, sum_cons, baseSize]
  omega

theorem appendKey_noHandlers (key : Key) (value : Bytes) (ctx : ReqCtx)
    (hlink : ctx.linkId ∈ s.established) :
    ∃ a, appendKey (noHandlers H) s ctx key value = some a ∧ a.server.established = s.established ∧
      a.server.backend = update s.backend key (some ((s.backend key).getD [] ++ value)) ∧
      ∃ r ∈ a.replies, r.ctx = ctx ∧ r.code = .success := by
  rw [appendKey]
  cases hold : s.backend key with
  | some old | none => simp [executeHandle, noHandlers, answerAndWakeup, replyWithMessage, hlink]

theorem handle_append (value : Bytes) (hlink : linkId ∈ s.established)
    (hkey : key.length ≤ maxKeySize)
    (hvalue : 50 + key.length + value.length ≤ maxRecvBodyLen) (uid : ℕ) :
    stores (noHandlers H) s (requestOf uid linkId (.append key value) 0) = true ∧
      ∃ a, s.handle (noHandlers H) (requestOf uid linkId (.append key value) 0) = some a ∧
        a.server.established = s.established ∧
        a.server.backend = update s.backend key (some ((s.backend key).getD [] ++ value)) := by
  have hmax : maxRecvBodyLen ≤ maxValueSize := by decide
  have hvalueSize : value.length ≤ maxValueSize := by omega
  have hunpack := decoded_append hkey hvalueSize
  have hbody : (pack (StoreOp.append key value).message).length ≤ maxRecvBodyLen := by
    rwa [length_pack_append]
  obtain ⟨a, ha, hestablished, hbackend, r, hr, hctx, hcode⟩ :=
    appendKey_noHandlers (s := s) key value ⟨uid, linkId, 0⟩ hlink
  have hhandle : s.handle (noHandlers H) (requestOf uid linkId (.append key value) 0) = some a := by
    rw [requestOf, Server.handle, receiveMessage]
    simp only [hunpack]
    rw [requestHandler, appendHandler]
    simp only [StoreOp.message]
    rw [if_neg (by rw [maxKeySize] at hkey; rw [maxKeyLenServer]; omega), ha]
  refine ⟨?_, a, hhandle, hestablished, hbackend⟩
  rw [requestOf] at hhandle
  rw [requestOf, stores, hhandle, decoded, map_some, hunpack]
  simp only [Bool.and_eq_true, decide_eq_true_eq, List.any_eq_true]
  exact ⟨⟨hbody, rfl⟩, r, hr, hctx, hcode⟩

theorem linkConnectedHandler_frame (s : Server H) (linkId rankReq : ℕ) :
    (linkConnectedHandler s linkId rankReq).established = s.established ∧
      ∀ key, autoRankingStr.isPrefixOf key = false →
        (linkConnectedHandler s linkId rankReq).backend key = s.backend key := by
  rw [linkConnectedHandler]
  simp only
  split
  · exact ⟨rfl, fun _ _ => rfl⟩
  refine ⟨rfl, fun key hrank => update_of_ne ?_ ..⟩
  rintro rfl
  cases hrank

theorem next_of_handle {worldSize : ℕ} {h : H} {e : Event} {a : Answer H}
    (ha : s.handle reg e = some a) : (storeSystem reg worldSize h).next s e = some a.server := by
  simp only [storeSystem, ha, map_some]

theorem exists_connected (reg : Registered H) (worldSize : ℕ) (h : H) (rankReq : ℕ → ℕ) (n : ℕ) :
    ∃ s, (storeSystem reg worldSize h).ReachableBy (fun s e => stores reg s e = true) s ∧
      (∀ i, i ∈ s.established ↔ i < n) ∧
      ∀ key, autoRankingStr.isPrefixOf key = false → s.backend key = none := by
  induction n with
  | zero => exact ⟨_, .start, by simp [storeSystem, Server.init], fun _ _ => rfl⟩
  | succ n ih =>
    obtain ⟨s, hs, hestablished, hbackend⟩ := ih
    have hnew : n ∉ s.established := by simp [hestablished]
    obtain ⟨hest, hback⟩ := linkConnectedHandler_frame
      { s with established := insert n s.established } n (rankReq n)
    refine ⟨_, hs.next (a := .connect n (rankReq n)) rfl (next_of_handle (if_neg hnew)),
      fun i => ?_, fun key hrank => ?_⟩
    · rw [hest, Finset.mem_insert, hestablished]
      omega
    · rw [hback key hrank]
      exact hbackend key hrank

variable {send : ℕ → Bytes}

section

variable (worldSize : ℕ) (h : H) (hkey : key.length ≤ maxKeySize)
  (hrank : autoRankingStr.isPrefixOf key = false)
include worldSize h hkey hrank

section

variable {size n : ℕ} (hsend : ∀ i, (send i).length = size)
  (hsize : 50 + key.length + (size + gatherPrefixSize) ≤ maxRecvBodyLen)
include hsend hsize

theorem exists_gathered :
    ∀ k, k ≤ n → ∃ s, (storeSystem (noHandlers H) worldSize h).ReachableBy
        (fun s e => stores (noHandlers H) s e = true) s ∧ (∀ i < n, i ∈ s.established) ∧
      (s.backend key).getD [] = gatherUnits id send (List.range k) := by
  intro k
  induction k with
  | zero =>
    intro _
    obtain ⟨s, hs, hestablished, hbackend⟩ := exists_connected (noHandlers H) worldSize h
      (fun i => worldSize * 2 ^ 32 + i) n
    refine ⟨s, hs, fun i hi => (hestablished i).mpr hi, ?_⟩
    rw [hbackend key hrank]
    rfl
  | succ k ih =>
    intro hk
    obtain ⟨s, hs, hestablished, hbackend⟩ := ih (by omega)
    have hlen : (gatherUnit k (send k)).length = size + gatherPrefixSize :=
      length_gatherUnit (hsend k) k
    obtain ⟨hstores, a, ha, hest, hback⟩ :=
      handle_append (gatherUnit k (send k)) (hestablished k (by omega)) hkey (by omega) k
    refine ⟨a.server, hs.next hstores (next_of_handle ha), ?_, ?_⟩
    · rwa [hest]
    · rw [hback, update_self, getD_some, hbackend, gatherUnits, gatherUnits,
        range_succ, flatMap_append, flatMap_singleton, id]

theorem exists_unreadable (hlong : maxReadable < n * (size + gatherPrefixSize)) :
    ∃ s, (storeSystem (noHandlers H) worldSize h).ReachableBy
        (fun s e => stores (noHandlers H) s e = true) s ∧
      s.backend key = some (gatherUnits id send (List.range n)) ∧ ¬ Readable (noHandlers H) s := by
  obtain ⟨s, hs, hestablished, hvalue⟩ :=
    exists_gathered (n := n) worldSize h hkey hrank hsend hsize n le_rfl
  have hlen := length_gatherUnits id hsend (range n)
  have hpos : 0 < n := Nat.pos_of_ne_zero (by rintro rfl; omega)
  rw [length_range, ← hvalue] at hlen
  cases hstored : s.backend key with
  | none =>
    rw [hstored, getD_none, length_nil] at hlen
    omega
  | some value =>
    rw [hstored, getD_some] at hvalue hlen
    refine ⟨s, hs, by rw [hstored, hvalue], fun hreadable => ?_⟩
    obtain ⟨a, body, hget, hreply, hrecv⟩ :=
      hreadable key value hstored hrank ⟨0, 0, 0⟩ (hestablished 0 hpos) 0 0
    rw [getHandler_present hstored hkey hrank, some_inj] at hget
    rw [← hget, answer, replyWithMessage, if_pos (hestablished 0 hpos)] at hreply
    simp only [cons.injEq, Reply.mk.injEq, true_and, and_true] at hreply
    have hrecv := hrecv ⟨0, []⟩
    rw [← hreply, receiveValue_pack, if_neg (by omega)] at hrecv
    cases hrecv

end

end

/-- `UN65536`, the largest send buffer of an all-gather. -/
def maxSendSize : ℕ := 65536

/-- An all-gather of 160 ranks that send 65536 bytes each, which the interface admits. -/
theorem gathered_value_unreadable : ∃ s : Server Unit,
    (storeSystem (noHandlers Unit) 160 ()).ReachableBy
      (fun s e => stores (noHandlers Unit) s e = true) s ∧
    s.backend (groupKey 0 1 .gatherAdd) =
      some (gatherUnits id (fun _ => List.replicate maxSendSize 0) (List.range 160)) ∧
    ¬ Readable (noHandlers Unit) s := by
  have hkey : (groupKey 0 1 .gatherAdd).length = 6 := by decide
  have hrank : autoRankingStr.isPrefixOf (groupKey 0 1 .gatherAdd) = false := by decide
  have hsend : ∀ i : ℕ,
      ((fun _ : ℕ => replicate maxSendSize (0 : UInt8)) i).length = maxSendSize := by
    intro i
    exact length_replicate
  have hkeySize : (groupKey 0 1 .gatherAdd).length ≤ maxKeySize := by
    rw [hkey, maxKeySize]
    omega
  have hsize : 50 + (groupKey 0 1 .gatherAdd).length + (maxSendSize + gatherPrefixSize) ≤
      maxRecvBodyLen := by
    rw [hkey, maxSendSize, gatherPrefixSize, maxRecvBodyLen]
    omega
  have hlong : maxReadable < 160 * (maxSendSize + gatherPrefixSize) := by
    rw [maxReadable, maxSendSize, gatherPrefixSize, maxRecvBodyLen, baseSize]
    omega
  exact exists_unreadable 160 () hkeySize hrank hsend hsize hlong

end Gather

end ConfigStore
