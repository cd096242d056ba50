/-
What the transports and the data operators ask of the hardware layer.

A remote read or write and a copy by the SDMA engine end in requests to a lower layer, each
for a number of bytes from one address to another.  `HwState` records the requests that were
accepted, and `HwEnv` answers every call on the way, including those that are no requests (a
connection, a key, a buffer, a stream) and may fail.

The sizes in a request are 32 bits wide; `narrow` is what becomes of a 64-bit size.  `Requests`
says which bytes a program has requested if it succeeds, and `Sends` how many it requests if
every call does.
-/
import MemFabric.DataOperator
import MemFabric.Spans

namespace Hybm

open List Span

def narrow (size : ℕ) : ℕ := size % 2 ^ 32

variable {size : ℕ}

theorem narrow_of_lt (h : size < 2 ^ 32) : narrow size = size := Nat.mod_eq_of_lt h

theorem narrow_le : narrow size ≤ size := Nat.mod_le size (2 ^ 32)

theorem lt_of_narrow_eq (h : narrow size = size) : size < 2 ^ 32 :=
  h ▸ Nat.mod_lt size (by decide)

/-- The elements of a batch of `count` that are reached by tables of `c` elements, if their number
is rounded up in 32 bits. -/
def reach (c count : ℕ) : ℕ := narrow (count + c - 1) / c * c

/-- The calls that decide whether an operation succeeds.  `request` is the one that hands
bytes to the hardware: `RaSendWrV2`, `ChannelGet`, `ChannelPut`, `ChannelGetV`, `ChannelPutV`,
`SubmitTasks` of a memory copy, `RtMemcpyAsync`, `HybmCopyExtend` and `HybmBatchCopyExtend`. -/
inductive HwCall
  | request (spans : List Span)
  | qpManager
  | qpHandle (rankId : ℕ)
  | threadHybmStream
  | submitDoorbell
  | synchronize
  | rpcService
  | channel (rankId : ℕ)
  | memoryRegion (rankId addr : ℕ)
  | prepareStream
  | aclrtMalloc (size : ℕ)
  | memcpy (dest src size : ℕ)
  | aclrtSynchronizeStream
  | paramSpace
  | swapMemory (size : ℕ)

/-- The accepted requests, and the number of calls made. -/
structure HwState where
  requests : List Span
  calls : ℕ
  deriving DecidableEq

/-- The answers to the calls, and where an allocated buffer is. -/
structure HwEnv where
  outcome : HwState → HwCall → Result
  address : HwState → ℕ

namespace HwState

def counted (s : HwState) : HwState := { s with calls := s.calls + 1 }

def accept (s : HwState) (spans : List Span) : HwState :=
  { s with requests := s.requests ++ spans }

end HwState

variable (env : HwEnv)

def ask (c : HwCall) : Program HwState Result := fun s => (env.outcome s c, s.counted)

def request (spans : List Span) : Program HwState Result :=
  (ask env (.request spans)).andThen (.modify fun s => s.accept spans)

/-- Run `body` with the address of a buffer, or fail with `ret` if there is none. -/
def withBuffer (c : HwCall) (ret : Result) (body : ℕ → Program HwState Result) :
    Program HwState Result := fun s =>
  (((ask env c).failWith ret).andThen (body (env.address s))) s

/-! ### What a program requests -/

open Program (Triple Keeps)

section

variable {env} {α β : Type*} {v : ℕ × ℕ → α} {p q : Program HwState Result} {w w' : List α}
  {c : HwCall} {ret : Result}

/-- The bytes of spans, seen through `v`: as pairs of addresses, or on one side. -/
def seen (v : ℕ × ℕ → α) (spans : List Span) : List α := (Span.bytesAll (2 ^ 64) spans).map v

/-- The far side alone, for bytes that go through a buffer on the near one. -/
def farSide (x : ℕ × ℕ) : ℕ × ℕ := (0, x.2)

def nearSide (x : ℕ × ℕ) : ℕ × ℕ := (x.1, 0)

def Sent (v : ℕ × ℕ → α) (b : List α) (s : HwState) : Prop := seen v s.requests = b

/-- If `p` succeeds, it has requested the bytes `w`, in this order and no others. -/
def Requests (v : ℕ × ℕ → α) (p : Program HwState Result) (w : List α) : Prop :=
  ∀ b, Triple (Sent v b) p (Sent v (b ++ w)) fun _ => True

theorem seen_append (spans spans' : List Span) :
    seen v (spans ++ spans') = seen v spans ++ seen v spans' := by
  rw [seen, bytesAll_append, map_append, seen, seen]

theorem seen_cons (span : Span) (spans : List Span) :
    seen v (span :: spans) = seen v [span] ++ seen v spans := seen_append [span] spans

theorem length_seen (spans : List Span) : (seen v spans).length = (spans.map Span.len).sum := by
  induction spans with
  | nil => rfl
  | cons x rest ih =>
    rw [seen_cons, length_append, ih, map_cons, sum_cons]
    simp [seen]

theorem seen_flatMap (xs : List β) (f : β → List Span) :
    seen v (xs.flatMap f) = xs.flatMap fun x => seen v (f x) := by
  induction xs with
  | nil => rfl
  | cons x xs ih => rw [flatMap_cons, flatMap_cons, seen_append, ih]

theorem seen_add {near far near' far' m n : ℕ} (hnear : near' % 2 ^ 64 = (near + m) % 2 ^ 64)
    (hfar : far' % 2 ^ 64 = (far + m) % 2 ^ 64) :
    seen v [⟨near, far, m + n⟩] = seen v [⟨near, far, m⟩] ++ seen v [⟨near', far', n⟩] := by
  simp only [seen, bytesAll_cons, bytesAll_nil, append_nil, bytes_add hnear hfar, map_append]

theorem seen_eq_nil {spans : List Span} (h : ∀ x ∈ spans, x.len = 0) : seen v spans = [] := by
  rw [← length_eq_zero_iff, length_seen]
  exact sum_eq_zero_iff.mpr (forall_mem_map.mpr h)

theorem seen_take {spans : List Span} {k : ℕ} (h : ∀ x ∈ spans.drop k, x.len = 0) :
    seen v (spans.take k) = seen v spans := by
  conv_rhs => rw [← take_append_drop k spans]
  rw [seen_append, seen_eq_nil h, append_nil]

theorem seen_mod (near far n : ℕ) :
    seen v [⟨near % 2 ^ 64, far % 2 ^ 64, n⟩] = seen v [⟨near, far, n⟩] := by
  simp only [seen, bytesAll_cons, bytes_mod]

theorem seen_farSide (near near' far n : ℕ) :
    seen farSide [⟨near, far, n⟩] = seen farSide [⟨near', far, n⟩] := by
  simp only [seen, bytesAll_cons, bytesAll_nil, append_nil, bytes,
    map_map, Function.comp_def, farSide]

theorem seen_nearSide (near far far' n : ℕ) :
    seen nearSide [⟨near, far, n⟩] = seen nearSide [⟨near, far', n⟩] := by
  simp only [seen, bytesAll_cons, bytesAll_nil, append_nil, bytes,
    map_map, Function.comp_def, nearSide]

theorem keeps_ask {b : List α} : Keeps (Sent v b) (ask env c) :=
  fun _ hs => ⟨fun _ => hs, fun _ => hs⟩

theorem triple_request {spans : List Span} {b : List α} :
    Triple (Sent v b) (request env spans) (Sent v (b ++ seen v spans)) (Sent v b) := by
  refine keeps_ask.andThen (.modify ?_)
  rintro s rfl
  exact seen_append s.requests spans

namespace Requests

theorem eq_of_ok (h : Requests v p w) {calls : ℕ} (hok : (p ⟨[], calls⟩).1 = .ok) :
    seen v (p ⟨[], calls⟩).2.requests = w :=
  (h [] ⟨[], calls⟩ rfl).1 hok

theorem of_triple {E : List α → HwState → Prop}
    (h : ∀ b, Triple (Sent v b) p (Sent v (b ++ w)) (E b)) : Requests v p w :=
  fun b => (h b).conseq (fun _ hs => hs) (fun _ hs => hs) fun _ _ => trivial

theorem of_keeps (h : ∀ b, Keeps (Sent v b) p) : Requests v p [] := by
  intro b
  rw [append_nil]
  exact (h b).conseq (fun _ hs => hs) (fun _ hs => hs) fun _ _ => trivial

theorem request (spans : List Span) : Requests v (request env spans) (seen v spans) :=
  of_triple fun _ => triple_request

theorem ask (c : HwCall) : Requests v (ask env c) [] := of_keeps fun _ => keeps_ask

theorem give_zero : Requests v (.give 0) [] :=
  fun b => .give_zero fun _ hs => (append_nil b).symm ▸ hs

theorem give (hret : ret ≠ 0) : Requests v (.give ret) w := fun _ => .give hret fun _ _ => trivial

theorem failWith (hret : ret ≠ 0) (h : Requests v p w) : Requests v (p.failWith ret) w :=
  fun b => (h b).failWith hret

theorem andThen (hp : Requests v p w) (hq : Requests v q w') :
    Requests v (p.andThen q) (w ++ w') := by
  intro b
  rw [← append_assoc]
  exact (hp b).andThen (hq (b ++ w))

theorem after (hp : Requests v p []) (hq : Requests v q w) : Requests v (p.andThen q) w :=
  hp.andThen hq

theorem before (hp : Requests v p w) (hq : Requests v q []) : Requests v (p.andThen q) w := by
  rw [← append_nil w]
  exact hp.andThen hq

theorem finish (hp : Requests v p w) (hq : Requests v q w') :
    Requests v (p.finish q) (w ++ w') := by
  intro b
  rw [← append_assoc]
  refine Triple.finish (hp b) (hq (b ++ w)) ?_
  exact fun _ _ => ⟨fun _ => trivial, fun _ => trivial⟩

theorem forEach {f : β → Program HwState Result} {g : β → List α} {xs : List β}
    (h : ∀ x ∈ xs, Requests v (f x) (g x)) : Requests v (.forEach f xs) (xs.flatMap g) := by
  induction xs with
  | nil => exact give_zero
  | cons x xs ih =>
    exact (h x mem_cons_self).andThen (ih fun y hy => h y (mem_cons_of_mem x hy))

theorem withBuffer (hret : ret ≠ 0) {body : ℕ → Program HwState Result}
    (h : ∀ addr, Requests v (body addr) w) : Requests v (withBuffer env c ret body) w := by
  intro b s hs
  exact (((ask c).failWith hret).after (h (env.address s))) b s hs

end Requests

end

/-! ### When every call succeeds -/

def allOkHw : HwEnv := ⟨fun _ _ => .ok, fun _ => 4096⟩

/-- `n` bytes have been requested. -/
def Total (n : ℕ) (s : HwState) : Prop := (s.requests.map Span.len).sum = n

/-- `p` succeeds and requests `n` bytes. -/
def Sends (p : Program HwState Result) (n : ℕ) : Prop :=
  ∀ a, Program.Runs (Total a) p (Total (a + n))

namespace Sends

variable {p q : Program HwState Result} {m n : ℕ} {c : HwCall} {ret : Result} {β : Type*}

theorem eq_of_ok (h : Sends p n) :
    (p ⟨[], 0⟩).1 = 0 ∧ ((p ⟨[], 0⟩).2.requests.map Span.len).sum = n := by
  obtain ⟨hok, htotal⟩ := (h 0).apply (s := ⟨[], 0⟩) rfl
  exact ⟨hok, htotal.trans (Nat.zero_add n)⟩

theorem ask (c : HwCall) : Sends (ask allOkHw c) 0 :=
  fun _ _ hs => ⟨fun _ => hs, fun h => absurd rfl h⟩

theorem give_zero : Sends (.give 0) 0 := fun _ => .give_zero fun _ hs => hs

theorem failWith (hret : ret ≠ 0) (h : Sends p n) : Sends (p.failWith ret) n :=
  fun a => (h a).failWith hret

theorem andThen (hp : Sends p m) (hq : Sends q n) : Sends (p.andThen q) (m + n) := by
  intro a
  rw [← Nat.add_assoc]
  exact Triple.andThen (hp a) (hq (a + m))

theorem after (hp : Sends p 0) (hq : Sends q n) : Sends (p.andThen q) n :=
  Nat.zero_add n ▸ hp.andThen hq

theorem before (hp : Sends p n) (hq : Sends q 0) : Sends (p.andThen q) n := hp.andThen hq

theorem finish (hp : Sends p m) (hq : Sends q n) : Sends (p.finish q) (m + n) := by
  intro a
  rw [← Nat.add_assoc]
  exact Triple.finish (hp a) (hq (a + m)) fun _ h => h.elim

theorem orElse (hp : Sends p n) : Sends (p.orElse q) n :=
  fun a => Triple.orElse (hp a) fun _ h => h.elim

theorem request (spans : List Span) : Sends (request allOkHw spans) (spans.map Span.len).sum := by
  intro a
  refine Triple.andThen (ask _ a) (.modify fun s hs => ?_)
  show ((s.requests ++ spans).map Span.len).sum = _
  rw [map_append, sum_append, hs, Nat.add_zero]

theorem forEach {f : β → Program HwState Result} {g : β → ℕ} {xs : List β}
    (h : ∀ x ∈ xs, Sends (f x) (g x)) : Sends (.forEach f xs) (xs.map g).sum := by
  induction xs with
  | nil => exact give_zero
  | cons x xs ih =>
    rw [map_cons, sum_cons]
    exact (h x mem_cons_self).andThen (ih fun y hy => h y (mem_cons_of_mem x hy))

theorem withBuffer (hret : ret ≠ 0) {body : ℕ → Program HwState Result}
    (h : ∀ addr, Sends (body addr) n) : Sends (withBuffer allOkHw c ret body) n := by
  intro a s hs
  exact (((ask c).failWith hret).after (h (allOkHw.address s))) a s hs

end Sends

end Hybm
