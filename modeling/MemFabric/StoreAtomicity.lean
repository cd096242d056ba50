/-
Failed operations and the content of the store.

An operation that the server answers with a code other than `SUCCESS` should leave the backend
as it was.  SET, ADD and CAS do: they ask the registered handler, or check what they need,
before they write.  APPEND writes first, and WRITE creates an absent key first, so a refusal of
the handler leaves the appended bytes or a key full of zeros behind.
-/
import MemFabric.StoreSystem

namespace ConfigStore

open Option Backend

variable {H : Type}

def IsUpdate (mt : MessageType) : Prop :=
  mt = .set ∨ mt = .add ∨ mt = .append ∨ mt = .cas ∨ mt = .write

/-- If the requester is told of a failure, the content is what it was. -/
def FailureHasNoEffect (s : Server H) (ctx : ReqCtx) (a : Answer H) : Prop :=
  ∀ r ∈ a.replies, r.ctx = ctx → r.code ≠ .success → a.server.backend = s.backend

/-- The registered handler refuses an APPEND; it sees the content already extended. -/
def AppendRefused (reg : Registered H) (s : Server H) (linkId : ℕ) (key : Key) (value : Bytes) :
    Prop :=
  ∃ e, executeHandle reg (s.extended key value) .append linkId key value = some e ∧ e.1 ≠ smOk

/-- The registered handler refuses a WRITE of an absent key; it sees the key
already created. -/
def CreationRefused (reg : Registered H) (s : Server H) (linkId : ℕ) (key : Key)
    (value : Bytes) : Prop :=
  ∃ e, executeHandle reg (s.created key value) .write linkId key value = some e ∧ e.1 ≠ smOk

/-- The handler refuses an APPEND that changes the content, or an accepted WRITE
of an absent key. -/
def LeavesTrace (reg : Registered H) (s : Server H) (ctx : ReqCtx) (m : SmemMessage) : Prop :=
  ∃ key value, m.keys = [key] ∧ m.values = [value] ∧ key.length ≤ maxKeyLenServer ∧
    ((m.mt = .append ∧ (s.backend key = none ∨ value ≠ []) ∧
        AppendRefused reg s ctx.linkId key value) ∨
      (m.mt = .write ∧ 4 ≤ value.length ∧ writeInRange value ∧ s.backend key = none ∧
        CreationRefused reg s ctx.linkId key value))

section

variable {reg : Registered H} {s : Server H} {ctx : ReqCtx} {m : SmemMessage}

/-! ### Exits without a trace -/

variable {a : Answer H}

theorem noEffect_of_backend_eq (h : a.server.backend = s.backend) : FailureHasNoEffect s ctx a :=
  fun _ _ _ _ => h

theorem noEffect_of_success (h : ∀ r ∈ a.replies, r.code = .success) : FailureHasNoEffect s ctx a :=
  fun r hr _ hcode => absurd (h r hr) hcode

theorem code_of_mem_answerAndWakeup {s' : Server H} {message value : Bytes}
    {waiters : List ReqCtx} :
    ∀ r ∈ (answerAndWakeup s' ctx .success message waiters value).replies, r.code = .success := by
  intro r hr
  rcases List.mem_append.mp hr with hr | hr
  · rw [mem_replyWithMessage hr]
  · obtain ⟨ctx', -, hr⟩ := List.mem_flatMap.mp hr
    rw [mem_replyWithMessage hr]

theorem setKey_noEffect {key : Key} {value : Bytes} (h : setKey reg s ctx key value = some a) :
    FailureHasNoEffect s ctx a := by
  obtain ⟨e, -, rfl⟩ := map_eq_some_iff.mp h
  dsimp only
  split
  · exact noEffect_of_backend_eq rfl
  · exact noEffect_of_success code_of_mem_answerAndWakeup

theorem addKey_noEffect {key : Key} {value : Bytes} {valueNum : ℤ}
    (h : addKey reg s ctx key value valueNum = some a) : FailureHasNoEffect s ctx a := by
  obtain ⟨e, -, h⟩ := bind_eq_some_iff.mp h
  dsimp only at h
  split at h
  · exact some_inj.mp h ▸ noEffect_of_backend_eq rfl
  split at h
  · exact some_inj.mp h ▸ noEffect_of_success code_of_mem_answerAndWakeup
  split at h
  · exact some_inj.mp h ▸ noEffect_of_backend_eq rfl
  split at h
  · exact some_inj.mp h ▸ noEffect_of_backend_eq rfl
  · obtain ⟨-, h⟩ := ite_none_left_eq_some.mp h
    exact some_inj.mp h ▸ noEffect_of_success code_of_mem_answerAndWakeup

theorem casKey_noEffect {mt : MessageType} {key : Key} {expected exchange : Bytes} :
    FailureHasNoEffect s ctx (casKey s ctx mt key expected exchange) := by
  rw [casKey]
  split
  · rename_i old _
    by_cases heq : expected = old
    · simp only [if_pos heq]
      exact noEffect_of_success code_of_mem_answerAndWakeup
    · simp only [if_neg heq]
      exact noEffect_of_backend_eq rfl
  split
  · exact noEffect_of_success code_of_mem_answerAndWakeup
  · exact noEffect_of_backend_eq rfl

/-! ### APPEND -/

/-- What `AppendHandler` does behind its checks: the content is extended in any
case, and the handler's verdict decides the reply. -/
theorem appendKey_cases {key : Key} {value : Bytes} (h : appendKey reg s ctx key value = some a) :
    a.server.backend =
        Function.update s.backend key (some ((s.backend key).getD [] ++ value)) ∧
      ((AppendRefused reg s ctx.linkId key value ∧
          a.replies = replyWithMessage s ctx .error (Bytes.ofString "failed")) ∨
        (¬ AppendRefused reg s ctx.linkId key value ∧ ∀ r ∈ a.replies, r.code = .success)) := by
  rw [appendKey] at h
  obtain ⟨e, he, rfl⟩ := map_eq_some_iff.mp h
  have href : AppendRefused reg s ctx.linkId key value ↔ e.1 ≠ smOk := by
    have hext : executeHandle reg (s.extended key value) .append ctx.linkId key value =
        some e := by
      rw [← he, Server.extended]
      cases s.backend key with
      | none | some old => rfl
    rw [AppendRefused, hext]
    simp only [some.injEq, exists_eq_left']
  rw [href]
  cases hkey : s.backend key with
  | none | some old =>
    simp only [getD_none, getD_some, List.nil_append]
    split
    · rename_i hfail
      exact ⟨rfl, .inl ⟨hfail, rfl⟩⟩
    · rename_i hok
      exact ⟨rfl, .inr ⟨hok, code_of_mem_answerAndWakeup⟩⟩

theorem update_append_eq_iff (b : Backend) (key : Key) (value : Bytes) :
    Function.update b key (some ((b key).getD [] ++ value)) = b ↔
      ¬ (b key = none ∨ value ≠ []) := by
  rw [Function.update_eq_self_iff]
  cases hkey : b key with
  | none | some old => simp

theorem appendKey_noEffect_iff (hlink : ctx.linkId ∈ s.established) {key : Key} {value : Bytes}
    (h : appendKey reg s ctx key value = some a) : FailureHasNoEffect s ctx a ↔
      ¬ ((s.backend key = none ∨ value ≠ []) ∧ AppendRefused reg s ctx.linkId key value) := by
  obtain ⟨hback, ⟨hfail, hreply⟩ | ⟨hok, hsucc⟩⟩ := appendKey_cases h
  · rw [replyWithMessage, if_pos hlink] at hreply
    constructor
    · rintro heff ⟨hchange, -⟩
      have heq := heff _ (hreply ▸ List.mem_singleton_self _) rfl (by simp)
      rw [hback, update_append_eq_iff] at heq
      exact heq hchange
    intro hno
    refine noEffect_of_backend_eq ?_
    rw [hback, update_append_eq_iff]
    exact fun hchange => hno ⟨hchange, hfail⟩
  constructor
  · rintro - ⟨-, hfail⟩
    exact hok hfail
  · exact fun _ => noEffect_of_success hsucc

/-! ### WRITE -/

theorem writeKey_noEffect_iff (hlink : ctx.linkId ∈ s.established) {key : Key} {value : Bytes}
    (h : writeKey reg s ctx key value = some a) : FailureHasNoEffect s ctx a ↔
      ¬ (s.backend key = none ∧ CreationRefused reg s ctx.linkId key value) := by
  rw [writeKey] at h
  rw [CreationRefused, Server.created]
  cases hkey : s.backend key with
  | some old =>
    simp only [writeCreate, hkey, ne_eq, not_true_eq_false, if_false, put_fst] at h
    obtain ⟨e, -, rfl⟩ := map_eq_some_iff.mp h
    simp only [reduceCtorEq, false_and, not_false_eq_true, iff_true]
    split
    · exact noEffect_of_backend_eq rfl
    · refine noEffect_of_success fun r hr => ?_
      rw [mem_replyWithMessage hr]
  | none =>
    simp only [writeCreate, hkey, ne_eq, not_true_eq_false, if_false, put_fst, put_snd] at h ⊢
    obtain ⟨e, he, rfl⟩ := map_eq_some_iff.mp h
    simp only [he, some.injEq, exists_eq_left', true_and]
    split
    · rename_i hfail
      constructor
      · intro heff _
        have heq := heff ⟨ctx, .error, Bytes.ofString "failed"⟩ (by
          show _ ∈ replyWithMessage s ctx _ _
          rw [replyWithMessage, if_pos hlink]
          exact List.mem_singleton_self _) rfl (by simp)
        have hat := congrFun heq key
        rw [hkey] at hat
        exact absurd hat (by simp [answerFailed, answer])
      · exact fun hno => absurd hfail hno
    · rename_i hok
      refine ⟨fun _ => hok, fun _ => noEffect_of_success fun r hr => ?_⟩
      rw [mem_replyWithMessage hr]

/-! ### All updates -/

theorem not_leavesTrace (happend : m.mt ≠ .append) (hwrite : m.mt ≠ .write) :
    ¬ LeavesTrace reg s ctx m := by
  rintro ⟨key, value, -, -, -, ⟨hm, -⟩ | ⟨hm, -⟩⟩
  · exact happend hm
  · exact hwrite hm

/-- A request that fails leaves the backend as it was, unless it is an APPEND or a WRITE that has
changed it before the registered handler refuses. -/
theorem failureHasNoEffect_iff {now : ℤ} {a : Answer H} (hlink : ctx.linkId ∈ s.established)
    (hmt : IsUpdate m.mt) (h : requestHandler reg s ctx m now = some a) :
    FailureHasNoEffect s ctx a ↔ ¬ LeavesTrace reg s ctx m := by
  constructor
  · rintro heff ⟨key, value, hk, hv, hlen, ⟨hm, htrace⟩ | ⟨hm, hsize, hrange, htrace⟩⟩
    · rw [requestHandler, hm] at h
      simp only [appendHandler, hk, hv, if_neg (not_lt.mpr hlen)] at h
      exact (appendKey_noEffect_iff hlink h).mp heff htrace
    · rw [requestHandler, hm] at h
      simp only [writeHandler, hk, hv, if_neg (not_lt.mpr hlen), if_neg (not_lt.mpr hsize),
        if_neg (not_not.mpr hrange)] at h
      exact (writeKey_noEffect_iff hlink h).mp heff htrace
  intro hno
  cases requestHandler_cases h with
  | refused | silent => exact noEffect_of_backend_eq rfl
  | set _ ha => exact setKey_noEffect ha
  | add _ ha => exact addKey_noEffect ha
  | cas => exact casKey_noEffect
  | append hq ha =>
    refine (appendKey_noEffect_iff hlink ha).mpr fun htrace => hno ?_
    exact ⟨_, _, hq.keys, hq.values, hq.length, .inl ⟨hq.mt, htrace⟩⟩
  | write hq hsize hrange ha =>
    refine (writeKey_noEffect_iff hlink ha).mpr fun htrace => hno ?_
    exact ⟨_, _, hq.keys, hq.values, hq.length, .inr ⟨hq.mt, hsize, hrange, htrace⟩⟩
  | rank hq | get hq | remove hq => simp [IsUpdate, hq.mt] at hmt
  | watch hq | heartbeat hq => simp [IsUpdate, hq] at hmt

end

/-- A client has connected, and the handler refuses its SET. -/
theorem refused_set_noEffect :
    ∃ s a, (storeSystem (refusing .set) 2 ()).run (Server.init 2 ()) [.connect 1 uint32Max] = some s ∧
      requestHandler (refusing .set) s ⟨0, 1, 0⟩ (StoreOp.set [107] [7]).message 0 = some a ∧
      a.replies = [⟨⟨0, 1, 0⟩, .error, Bytes.ofString "failed"⟩] ∧
      FailureHasNoEffect s ⟨0, 1, 0⟩ a := by
  have hrun : ((storeSystem (refusing .set) 2 ()).run (Server.init 2 ())
      [.connect 1 uint32Max]).map (fun s => decide (1 ∈ s.established)) = some true := by
    decide +kernel
  obtain ⟨s, hs, hlink⟩ := map_eq_some_iff.mp hrun
  rw [decide_eq_true_iff] at hlink
  have hreq : requestHandler (refusing .set) s ⟨0, 1, 0⟩ (StoreOp.set [107] [7]).message 0 =
    some (answerFailed s ⟨0, 1, 0⟩) := rfl
  exact ⟨s, _, hs, hreq, if_pos hlink, (failureHasNoEffect_iff hlink (.inl rfl) hreq).mpr
    (not_leavesTrace (by decide) (by decide))⟩

/-- A client has connected, and the handler refuses its APPEND: the reply is
`ERROR`, and the key is there. -/
theorem refused_append_changes_content :
    ∃ s a, (storeSystem (refusing .append) 2 ()).run (Server.init 2 ())
        [.connect 1 uint32Max] = some s ∧
      requestHandler (refusing .append) s ⟨0, 1, 0⟩ (StoreOp.append [107] [7]).message 0 = some a ∧
      ¬ FailureHasNoEffect s ⟨0, 1, 0⟩ a := by
  have hrun : ((storeSystem (refusing .append) 2 ()).run (Server.init 2 ())
      [.connect 1 uint32Max]).map (fun s => (decide (1 ∈ s.established), s.backend [107])) =
      some (true, none) := by
    decide +kernel
  obtain ⟨s, hs, hval⟩ := map_eq_some_iff.mp hrun
  rw [Prod.mk.injEq, decide_eq_true_iff] at hval
  have href : AppendRefused (refusing .append) s 1 [107] [7] :=
    ⟨(smInvalidParam, [7], ()), rfl, by decide⟩
  have hlink : (ReqCtx.mk 0 1 0).linkId ∈ s.established := hval.1
  obtain ⟨a, ha⟩ : ∃ a, appendKey (refusing .append) s ⟨0, 1, 0⟩ [107] [7] = some a := ⟨_, rfl⟩
  exact ⟨s, a, hs, ha, fun heff => (appendKey_noEffect_iff hlink ha).mp heff ⟨.inl hval.2, href⟩⟩

end ConfigStore
