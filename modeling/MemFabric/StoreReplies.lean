/-
Every request is answered.

A client blocks until it gets a reply, so each exit of a handler has to send one or, for a GET
that waits, register a waiter.  Two kinds of exit do neither: the operand of an ADD that does not
parse, and a WRITE with a bad offset, both behind a validation macro that only logs.  Other
executions do not come to an end: a WRITE of less than four bytes is read past its end, the sum of
an ADD or the deadline of a GET may overflow, and the registered handler may not return.  All
other requests get exactly one reply, whatever the state of the server (`answered_iff`).
-/
import MemFabric.MessageCodec
import MemFabric.StoreHistory

namespace ConfigStore

variable {H : Type}

/-- One reply to the requester and no new waiter, or, for a GET only, no reply
and one new waiter. -/
def Answered (s : Server H) (ctx : ReqCtx) (mt : MessageType) (now : ℤ) :
    Option (Answer H) → Prop
  | none => False
  | some a =>
    (∃ r, repliesTo a.replies ctx = [r] ∧
        ∀ id w, a.server.waiters.waitCtx id = some w → s.waiters.waitCtx id = some w) ∨
      (mt = .get ∧ repliesTo a.replies ctx = [] ∧
        ∃ key userDef, a.server.waiters = s.waiters.addWaiter ctx key userDef now)

theorem RepliesOnce.answered {s : Server H} {ctx : ReqCtx} {a : Answer H} (mt : MessageType)
    (now : ℤ) (hlink : ctx.linkId ∈ s.established) (hfresh : ¬ s.waiters.Waits ctx)
    (h : RepliesOnce s ctx a) : Answered s ctx mt now (some a) := by
  obtain ⟨code, message, woken, hreply, hwoken, hwait⟩ := h
  refine .inl ⟨⟨ctx, code, message⟩, ?_, hwait⟩
  have hnil : repliesTo woken ctx = [] :=
    repliesTo_eq_nil fun r hr heq => hfresh (heq ▸ hwoken r hr)
  rw [hreply, repliesTo_append, hnil, List.append_nil, replyWithMessage, if_pos hlink]
  simp [repliesTo]

section Exits

variable {reg : Registered H} {s : Server H} {ctx : ReqCtx} {m : SmemMessage}

theorem requestHandler_answered (now : ℤ) (hlink : ctx.linkId ∈ s.established)
    (hfresh : ¬ s.waiters.Waits ctx) (hkeys : ∀ k ∈ m.keys, k.length ≤ maxKeyLenServer)
    (hmt : IsStoreRequest m.mt) (hok : ¬ (Unanswerable m ∨ Undefined reg s ctx m now)) :
    Answered s ctx m.mt now (requestHandler reg s ctx m now) := by
  obtain ⟨hanswerable, hdefined⟩ := not_or.mp hok
  cases hreq : requestHandler reg s ctx m now with
  | none =>
    rcases requestHandler_eq_none hreq with ⟨key, value, hq, hsize⟩ | hundefined
    · exact absurd ⟨key, value, hq.keys, hq.values, .inr ⟨hq.mt, .inl hsize⟩⟩ hanswerable
    · exact absurd hundefined hdefined
  | some a =>
    rcases (requestHandler_exit hreq).replies hmt hkeys hanswerable with h | ⟨hget, hnil, hwait⟩
    · exact h.answered m.mt now hlink hfresh
    · exact .inr ⟨hget, by rw [hnil, repliesTo, List.filter_nil], hwait⟩

theorem requestHandler_silent (now : ℤ) (hkeys : ∀ k ∈ m.keys, k.length ≤ maxKeyLenServer)
    (hbad : Unanswerable m) : ¬ Answered s ctx m.mt now (requestHandler reg s ctx m now) := by
  obtain ⟨key, value, hk, hv, hbad⟩ := hbad
  have hlen : ¬ key.length > maxKeyLenServer :=
    not_lt.mpr (hkeys key (hk ▸ List.mem_singleton_self key))
  have hsilent : ∀ ret, m.mt ≠ .get → ¬ Answered s ctx m.mt now (some (silent s ret)) := by
    rintro ret hget (⟨r, hr, -⟩ | ⟨hmt, -⟩)
    · exact absurd hr (by simp [silent, repliesTo])
    · exact hget hmt
  rcases hbad with ⟨hmt, hread⟩ | ⟨hmt, hbad⟩
  · have hreq : requestHandler reg s ctx m now = some (silent s smError) := by
      simp only [requestHandler, hmt, addHandler, hk, hv, if_neg hlen, hread]
    rw [hreq]
    exact hsilent smError (by simp [hmt])
  by_cases hsize : value.length < 4
  · have hreq : requestHandler reg s ctx m now = none := by
      simp only [requestHandler, hmt, writeHandler, hk, hv, if_neg hlen, if_pos hsize]
    rw [hreq]
    exact fun h => h
  have hrange : ¬ writeInRange value := hbad.resolve_left hsize
  have hreq : requestHandler reg s ctx m now = some (silent s StoreErrorCode.invalidKey.toInt) := by
    simp only [requestHandler, hmt, writeHandler, hk, hv, if_neg hlen, if_neg hsize, if_pos hrange]
  rw [hreq]
  exact hsilent _ (by simp [hmt])

theorem requestHandler_undefined (now : ℤ) (hkeys : ∀ k ∈ m.keys, k.length ≤ maxKeyLenServer)
    (h : Undefined reg s ctx m now) : requestHandler reg s ctx m now = none := by
  have hlen : ∀ {key}, m.keys = [key] → ¬ key.length > maxKeyLenServer := fun {key} hk =>
    not_lt.mpr (hkeys key (hk ▸ List.mem_singleton_self key))
  rw [Undefined] at h
  split at h
  next key value hmt hk hv =>
    simp only [requestHandler, hmt, setHandler, hk, hv, if_neg (hlen hk)]
    exact Option.map_eq_none_iff.mpr h
  next key hmt hk hv =>
    simp only [requestHandler, hmt, getHandler, hk, hv, if_neg (hlen hk), h.1, Bool.false_eq_true,
      if_false]
    exact getKey_eq_none_iff.mpr h.2
  next key value hmt hk hv =>
    obtain ⟨valueNum, hread, htext, hadd⟩ := h
    simp only [requestHandler, hmt, addHandler, hk, hv, if_neg (hlen hk), hread,
      if_neg (not_not.mpr htext)]
    exact addKey_eq_none_iff.mpr hadd
  next key value hmt hk hv =>
    simp only [requestHandler, hmt, appendHandler, hk, hv, if_neg (hlen hk)]
    exact appendKey_eq_none_iff.mpr h
  next key value hmt hk hv =>
    obtain ⟨hsize, hrange, hwrite⟩ := h
    simp only [requestHandler, hmt, writeHandler, hk, hv, if_neg (hlen hk),
      if_neg (not_lt.mpr hsize), if_neg (not_not.mpr hrange)]
    exact writeKey_eq_none_iff.mpr hwrite
  next => exact h.elim

end Exits

/-- A request over a live link is answered exactly if it is none of those that are dropped and
its execution is defined. -/
theorem answered_iff (reg : Registered H) (worldSize : ℕ) (h : H) {w : History H}
    (hw : (historySystem reg worldSize h).Reachable w) {ctx : ReqCtx} (huid : ctx.uid = w.steps)
    (hlink : ctx.linkId ∈ w.server.established) {data : Bytes} {m : SmemMessage} {n : ℕ}
    (hm : unpack data = .ok (m, n)) (hmt : IsStoreRequest m.mt) (now : ℤ) :
    Answered w.server ctx m.mt now (receiveMessage reg w.server ctx (some data) now) ↔
      ¬ (Unanswerable m ∨ Undefined reg w.server ctx m now) := by
  have hfresh : ¬ w.server.waiters.Waits ctx := by
    rintro ⟨id, c, hc, hcc⟩
    exact (tableInv_of_reachable reg worldSize h hw).reqCtx_ne huid hc hcc
  have hkeys : ∀ k ∈ m.keys, k.length ≤ maxKeyLenServer := (unpack_eq_ok_iff.mp hm).1.keySize
  have hreq : receiveMessage reg w.server ctx (some data) now =
      requestHandler reg w.server ctx m now := by
    simp only [receiveMessage, hm]
  rw [hreq]
  constructor
  · rintro hans (hbad | hundefined)
    · exact requestHandler_silent now hkeys hbad hans
    · rw [requestHandler_undefined now hkeys hundefined] at hans
      exact hans
  · exact requestHandler_answered now hlink hfresh hkeys hmt

/-- A SET of a client that has just connected. -/
theorem answered_set :
    ∃ w, (historySystem (noHandlers Unit) 2 ()).run (historySystem (noHandlers Unit) 2 ()).start
        [.connect 1 uint32Max] = some w ∧
      Answered w.server ⟨1, 1, 0⟩ .set 0 (receiveMessage (noHandlers Unit) w.server ⟨1, 1, 0⟩
        (some (pack (StoreOp.set [107] [7]).message)) 0) := by
  refine TransitionSystem.exists_run (fun w => (w.steps, decide (1 ∈ w.server.established))) (1,
    true) ?_ fun w hw hval => ?_
  · decide +kernel
  rw [Prod.mk.injEq, decide_eq_true_iff] at hval
  have hm : unpack (pack (StoreOp.set [107] [7]).message) =
      .ok ((StoreOp.set [107] [7]).message, 52) := by decide +kernel
  have huid : (ReqCtx.mk 1 1 0).uid = w.steps := hval.1.symm
  refine (answered_iff (noHandlers Unit) 2 () (TransitionSystem.reachable_of_run hw)
    huid hval.2 hm (.inl rfl) 0).mpr ?_
  rintro (⟨key, value, -, -, ⟨hmt, -⟩ | ⟨hmt, -⟩⟩ | hundefined)
  · cases hmt
  · cases hmt
  · cases hundefined

/-- An ADD of `abc`: the request decodes, and the client is sent nothing. -/
theorem add_of_text_unanswered :
    ∃ w, (historySystem (noHandlers Unit) 2 ()).run (historySystem (noHandlers Unit) 2 ()).start
        [.connect 1 uint32Max] = some w ∧
      ¬ Answered w.server ⟨1, 1, 0⟩ .add 0 (receiveMessage (noHandlers Unit) w.server ⟨1, 1, 0⟩
        (some (pack { mt := .add, keys := [[107]], values := [Bytes.ofString "abc"] })) 0) := by
  obtain ⟨w, hw⟩ := Option.isSome_iff_exists.mp (show ((historySystem (noHandlers Unit) 2 ()).run
    (historySystem (noHandlers Unit) 2 ()).start [.connect 1 uint32Max]).isSome = true by
    decide +kernel)
  have hm : unpack (pack { mt := .add, keys := [[107]], values := [Bytes.ofString "abc"] }) =
      .ok ({ mt := .add, keys := [[107]], values := [Bytes.ofString "abc"] }, 54) := by
    decide +kernel
  refine ⟨w, hw, ?_⟩
  simp only [receiveMessage, hm]
  exact requestHandler_silent 0 (unpack_eq_ok_iff.mp hm).1.keySize
    ⟨[107], Bytes.ofString "abc", rfl, rfl, .inl ⟨rfl, by decide⟩⟩

end ConfigStore
