/-
The message codec of the configuration store is a bijection.

`unpack` walks through the buffer with an offset.  Each of its reads is characterised by what the
buffer holds at the offset, and so is the whole decoder (`unpack_eq_ok_iff`).
-/
import MemFabric.Message
import MemFabric.Records

namespace ConfigStore

open List Bytes

open Records

/-- The limits of `Unpack`; the user-defined number is an `int64_t`. -/
structure SmemMessage.WithinLimits (m : SmemMessage) : Prop where
  userDef : -2 ^ 63 ≤ m.userDef ∧ m.userDef < 2 ^ 63
  keyCount : m.keys.length ≤ maxKeyCount
  keySize : ∀ k ∈ m.keys, k.length ≤ maxKeySize
  valueCount : m.values.length ≤ maxValueCount
  valueSize : ∀ v ∈ m.values, v.length ≤ maxValueSize

/-! ### What is packed -/

theorem length_packBytes (bs : Bytes) : (packBytes bs).length = 8 + bs.length := by
  rw [packBytes, length_append, le_length]

theorem length_flatMap_packBytes (strings : List Bytes) :
    (strings.flatMap packBytes).length = (strings.map fun bs => 8 + bs.length).sum := by
  rw [length_flatMap]
  simp only [length_packBytes]

theorem length_pack (m : SmemMessage) : (pack m).length = packedSize m := by
  have hkeys : (m.keys.flatMap packBytes).length = (m.keys.map fun k => 8 + k.length).sum :=
    length_flatMap_packBytes m.keys
  have hvalues := length_flatMap_packBytes m.values
  simp only [pack, packedSize, baseSize, length_append, le_length, hkeys, hvalues]
  omega

theorem flatMap_packBytes_le {strings : List Bytes} {maxSize : ℕ}
    (h : ∀ bs ∈ strings, bs.length ≤ maxSize) :
    (strings.flatMap packBytes).length ≤ strings.length * (8 + maxSize) := by
  rw [length_flatMap_packBytes]
  refine (sum_le_card_nsmul _ (8 + maxSize) ?_).trans_eq ?_
  · intro n hn
    obtain ⟨bs, hbs, rfl⟩ := mem_map.mp hn
    exact Nat.add_le_add_left (h bs hbs) 8
  · rw [length_map, smul_eq_mul]

variable {m : SmemMessage} {buffer : Bytes} {offset n : ℕ}

theorem SmemMessage.WithinLimits.length_pack_lt (h : m.WithinLimits) :
    (pack m).length < 256 ^ 8 := by
  have hkeys := flatMap_packBytes_le h.keySize
  have hvalues := flatMap_packBytes_le h.valueSize
  have hkeyCount := Nat.mul_le_mul_right (8 + maxKeySize) h.keyCount
  have hvalueCount := Nat.mul_le_mul_right (8 + maxValueSize) h.valueCount
  rw [length_flatMap_packBytes] at hkeys hvalues
  rw [length_pack, packedSize]
  norm_num [baseSize, maxKeyCount, maxKeySize, maxValueCount, maxValueSize] at *
  omega

/-! ### What is read -/

theorem holds_le_iff {w : ℕ} (hw : 0 < w) :
    Holds buffer offset (Bytes.le w n) ↔
      offset + w ≤ buffer.length ∧ (buffer.drop offset).take w = Bytes.le w n := by
  constructor
  · intro h
    have hne : Bytes.le w n ≠ [] := ne_nil_of_length_pos (by rwa [le_length])
    have hle := h.le hne
    rw [Holds, le_length] at h
    rw [le_length] at hle
    exact ⟨hle, h⟩
  · intro h
    rw [Holds, le_length]
    exact h.2

theorem readLe_eq_ok_iff {w : ℕ} (hw : 0 < w) :
    readLe buffer w offset = .ok n ↔ n < 256 ^ w ∧ Holds buffer offset (Bytes.le w n) := by
  rw [holds_le_iff hw, readLe]
  by_cases hle : offset + w ≤ buffer.length
  · have hlen : ((buffer.drop offset).take w).length = w := by
      rw [length_take, length_drop]
      omega
    rw [if_pos hle, Except.ok.injEq]
    constructor
    · rintro rfl
      have hlt := leValue_lt ((buffer.drop offset).take w)
      have hle' := le_leValue ((buffer.drop offset).take w)
      rw [hlen] at hlt hle'
      exact ⟨hlt, hle, hle'.symm⟩
    · rintro ⟨hlt, -, hbytes⟩
      rw [hbytes, leValue_le_of_lt hlt]
  rw [if_neg hle]
  constructor
  · intro h
    cases h
  · rintro ⟨-, h, -⟩
    exact absurd h hle

theorem except_bind_eq_ok_iff {ε α β : Type} {x : Except ε α} {f : α → Except ε β} {b : β} :
    x >>= f = .ok b ↔ ∃ a, x = .ok a ∧ f a = .ok b := by
  cases x with
  | error e | ok a => simp [bind, Except.bind]

theorem ite_error_eq_ok_iff {ε β : Type} {P : Prop} [Decidable P] {e : ε} {x : Except ε β}
    {b : β} : (if P then .error e else x) = .ok b ↔ ¬ P ∧ x = .ok b := by
  split
  · simp [*]
  · simp [*]

theorem holds_packBytes_iff {bs : Bytes} :
    Holds buffer offset (packBytes bs) ↔
      Holds buffer offset (Bytes.le 8 bs.length) ∧ Holds buffer (offset + 8) bs := by
  rw [packBytes, holds_append, le_length]

/-- A string of the loop is read exactly if it is within the limit and the buffer holds its packed
form. -/
theorem exists_readLe_iff {maxSize : ℕ} (hmax : maxSize < 256 ^ 8) {P : ℕ → Bytes → Prop} :
    (∃ size, readLe buffer 8 offset = .ok size ∧
      ¬ (size > maxSize ∨ offset + 8 + size > buffer.length) ∧
      P size ((buffer.drop (offset + 8)).take size)) ↔
    ∃ bs, bs.length ≤ maxSize ∧ Holds buffer offset (packBytes bs) ∧ P bs.length bs := by
  simp only [holds_packBytes_iff]
  constructor
  · rintro ⟨size, hsize, hfit, h⟩
    obtain ⟨-, hword⟩ := (readLe_eq_ok_iff (by omega)).mp hsize
    have hlen : ((buffer.drop (offset + 8)).take size).length = size := by
      rw [length_take, length_drop]
      omega
    refine ⟨(buffer.drop (offset + 8)).take size, by omega, ⟨by rwa [hlen], ?_⟩, by rwa [hlen]⟩
    rw [Holds, hlen]
  · rintro ⟨bs, hle, ⟨hword, hbs⟩, h⟩
    have hsize := (readLe_eq_ok_iff (by omega)).mpr ⟨by omega, hword⟩
    obtain ⟨hfit, -⟩ := (holds_le_iff (by omega)).mp hword
    have hlen := congrArg length hbs
    rw [length_take, length_drop] at hlen
    refine ⟨bs.length, hsize, by omega, ?_⟩
    rw [Holds] at hbs
    rwa [hbs]

theorem unpackStrings_eq_ok_iff {maxSize : ℕ} (hmax : maxSize < 256 ^ 8) :
    ∀ {count offset : ℕ} {strings : List Bytes} {stop : ℕ},
      unpackStrings buffer maxSize count offset = .ok (strings, stop) ↔
        strings.length = count ∧ (∀ bs ∈ strings, bs.length ≤ maxSize) ∧
          Holds buffer offset (strings.flatMap packBytes) ∧
          stop = offset + (strings.flatMap packBytes).length := by
  intro count
  induction count with
  | zero =>
    intro offset strings stop
    rw [unpackStrings, Except.ok.injEq, Prod.mk.injEq]
    constructor
    · rintro ⟨rfl, rfl⟩
      exact ⟨rfl, by simp, rfl, rfl⟩
    rintro ⟨hlen, -, -, rfl⟩
    obtain rfl := length_eq_zero_iff.mp hlen
    exact ⟨rfl, rfl⟩
  | succ count ih =>
    intro offset strings stop
    simp only [unpackStrings, except_bind_eq_ok_iff, ite_error_eq_ok_iff]
    rw [exists_readLe_iff hmax (P := fun size bs => ∃ r,
      unpackStrings buffer maxSize count (offset + 8 + size) = .ok r ∧
        Except.ok (bs :: r.1, r.2) = .ok (strings, stop))]
    constructor
    · rintro ⟨bs, hle, hhead, ⟨rest, stop'⟩, hrest, h⟩
      obtain ⟨rfl, hlimit, hholds, rfl⟩ := ih.mp hrest
      obtain ⟨rfl, rfl⟩ := h
      rw [forall_mem_cons, flatMap_cons, holds_append, length_append, length_packBytes,
        ← Nat.add_assoc]
      exact ⟨rfl, ⟨hle, hlimit⟩, ⟨hhead, hholds⟩, by dsimp only; omega⟩
    rintro ⟨hcount, hlimit, hholds, rfl⟩
    cases strings with
    | nil => nomatch hcount
    | cons bs rest =>
      rw [flatMap_cons, holds_append, length_packBytes, ← Nat.add_assoc] at hholds
      obtain ⟨hle, hlimit⟩ := forall_mem_cons.mp hlimit
      refine ⟨bs, hle, hholds.1, (rest, _),
        ih.mpr ⟨by simpa using hcount, hlimit, hholds.2, rfl⟩, ?_⟩
      rw [Except.ok.injEq, Prod.mk.injEq, flatMap_cons, length_append, length_packBytes]
      exact ⟨rfl, by omega⟩

/-- What follows the strings, in terms of what the buffer holds. -/
theorem exists_unpackStrings_iff {maxSize count : ℕ} (hmax : maxSize < 256 ^ 8) {P : ℕ → Prop} :
    (∃ r, unpackStrings buffer maxSize count offset = .ok r ∧ P r.2) ↔
      ∃ strings : List Bytes, strings.length = count ∧ (∀ bs ∈ strings, bs.length ≤ maxSize) ∧
        Holds buffer offset (strings.flatMap packBytes) ∧
        P (offset + (strings.flatMap packBytes).length) := by
  simp only [Prod.exists, unpackStrings_eq_ok_iff hmax, and_assoc, exists_and_left, exists_eq_left]

/-! ### The decoder -/

theorem MessageType.ofCode_code (mt : MessageType) : ofCode mt.code = some mt := by
  cases mt <;> rfl

theorem MessageType.code_lt (mt : MessageType) : mt.code < 256 ^ 2 := by
  cases mt <;> decide

theorem MessageType.ofCode_eq_some_iff {mt : MessageType} : ofCode n = some mt ↔ n = mt.code := by
  constructor
  · intro h
    unfold ofCode at h
    split at h <;> simp_all [code] <;> subst h <;> rfl
  · rintro rfl
    exact ofCode_code mt

theorem bmod_eq_iff {userDef : ℤ} :
    n < 256 ^ 8 ∧ (n : ℤ).bmod (2 ^ 64) = userDef ↔
      (-2 ^ 63 ≤ userDef ∧ userDef < 2 ^ 63) ∧ n = (userDef % 2 ^ 64).toNat := by
  constructor
  · rintro ⟨hn, rfl⟩
    have hlo : -((2 ^ 64 : ℕ) / 2 : ℤ) ≤ (n : ℤ).bmod (2 ^ 64) := Int.le_bmod (by norm_num)
    have hhi : (n : ℤ).bmod (2 ^ 64) < ((2 ^ 64 : ℕ) + 1 : ℤ) / 2 := Int.bmod_lt (by norm_num)
    have hmod : (n : ℤ).bmod (2 ^ 64) % (2 ^ 64 : ℕ) = n % (2 ^ 64 : ℕ) := Int.bmod_emod
    norm_num at hlo hhi hmod hn ⊢
    omega
  rintro ⟨⟨hlo, hhi⟩, rfl⟩
  have hnonneg : 0 ≤ userDef % 2 ^ 64 := Int.emod_nonneg _ (by norm_num)
  have hlt : userDef % 2 ^ 64 < 2 ^ 64 := Int.emod_lt_of_pos _ (by norm_num)
  refine ⟨by norm_num at hnonneg hlt ⊢; omega, ?_⟩
  rw [Int.toNat_of_nonneg hnonneg]
  have hmod : (userDef % (2 ^ 64 : ℕ)).bmod (2 ^ 64) = userDef.bmod (2 ^ 64) :=
    Int.emod_bmod _ _
  norm_num at hmod hlo hhi ⊢
  rw [hmod, Int.bmod_eq_of_le_mul_two (by norm_num; omega) (by norm_num; omega)]

theorem holds_pack_iff :
    Holds buffer 0 (pack m) ↔ Holds buffer 0 (Bytes.le 8 (pack m).length) ∧
      Holds buffer 8 (Bytes.le 8 (m.userDef % 2 ^ 64).toNat) ∧
      Holds buffer 16 (Bytes.le 2 m.mt.code) ∧
      Holds buffer 18 (Bytes.le 8 m.keys.length) ∧
      Holds buffer 26 (m.keys.flatMap packBytes) ∧
      Holds buffer (26 + (m.keys.flatMap packBytes).length) (Bytes.le 8 m.values.length) ∧
      Holds buffer (26 + (m.keys.flatMap packBytes).length + 8) (m.values.flatMap packBytes) := by
  rw [length_pack]
  simp only [pack, holds_append, length_append, le_length, and_assoc, Nat.zero_add, Nat.reduceAdd]

theorem length_pack_eq (m : SmemMessage) :
    (pack m).length =
      26 + (m.keys.flatMap packBytes).length + 8 + (m.values.flatMap packBytes).length := by
  simp only [pack, length_append, le_length]

theorem full_of_holds (hm : m.WithinLimits) (h : Holds buffer 0 (pack m)) : full buffer = true := by
  have hlen := length_pack_eq m
  have hle : 0 + (pack m).length ≤ buffer.length :=
    h.le (ne_nil_of_length_pos (by omega))
  have htotal := ((holds_le_iff (by omega)).mp (holds_pack_iff.mp h).1).2
  rw [drop_zero] at htotal
  rw [full, htotal, leValue_le_of_lt hm.length_pack_lt, baseSize]
  simp only [Bool.and_eq_true, decide_eq_true_eq]
  omega

/-- A buffer decodes to a message exactly if the message is within the limits and the buffer begins
with its packed form. -/
theorem unpack_eq_ok_iff :
    unpack buffer = .ok (m, n) ↔
      m.WithinLimits ∧ n = (pack m).length ∧ Holds buffer 0 (pack m) := by
  have hmaxKey : maxKeySize < 256 ^ 8 := by norm_num [maxKeySize]
  have hmaxValue : maxValueSize < 256 ^ 8 := by norm_num [maxValueSize]
  rw [unpack]
  constructor
  · intro h
    obtain ⟨-, h⟩ := ite_error_eq_ok_iff.mp h
    obtain ⟨totalSize, htotal, h⟩ := except_bind_eq_ok_iff.mp h
    obtain ⟨userDef, huserDef, h⟩ := except_bind_eq_ok_iff.mp h
    obtain ⟨code, hcode, h⟩ := except_bind_eq_ok_iff.mp h
    split at h
    · cases h
    rename_i mt hmt
    obtain rfl := MessageType.ofCode_eq_some_iff.mp hmt
    obtain ⟨keyCount, hkeyCount, h⟩ := except_bind_eq_ok_iff.mp h
    obtain ⟨hkeyLimit, h⟩ := ite_error_eq_ok_iff.mp h
    obtain ⟨⟨keys, behind⟩, hkeys, h⟩ := except_bind_eq_ok_iff.mp h
    obtain ⟨valueCount, hvalueCount, h⟩ := except_bind_eq_ok_iff.mp h
    obtain ⟨hvalueLimit, h⟩ := ite_error_eq_ok_iff.mp h
    obtain ⟨⟨values, stop⟩, hvalues, h⟩ := except_bind_eq_ok_iff.mp h
    obtain ⟨hstop, h⟩ := ite_error_eq_ok_iff.mp h
    rw [Except.ok.injEq, Prod.mk.injEq] at h
    obtain ⟨rfl, rfl⟩ := h
    rw [not_not] at hstop
    obtain ⟨rfl, hkeySize, hkeyBytes, rfl⟩ := (unpackStrings_eq_ok_iff hmaxKey).mp hkeys
    obtain ⟨rfl, hvalueSize, hvalueBytes, rfl⟩ := (unpackStrings_eq_ok_iff hmaxValue).mp hvalues
    rw [readLe_eq_ok_iff (by omega)] at htotal huserDef hcode hkeyCount hvalueCount
    obtain ⟨hrange, hbytes⟩ := bmod_eq_iff.mp ⟨huserDef.1, rfl⟩
    have hlen : totalSize = (pack ⟨mt, (userDef : ℤ).bmod (2 ^ 64), keys, values⟩).length := by
      rw [length_pack_eq]
      exact hstop
    refine ⟨⟨by simpa only using hrange, not_lt.mp hkeyLimit, hkeySize, not_lt.mp hvalueLimit,
      hvalueSize⟩, hlen, ?_⟩
    rw [holds_pack_iff, ← hlen, ← hbytes]
    exact ⟨htotal.2, huserDef.2, hcode.2, hkeyCount.2, hkeyBytes, hvalueCount.2, hvalueBytes⟩
  rintro ⟨hm, rfl, h⟩
  have hfull := full_of_holds hm h
  obtain ⟨htotal, huserDef, hcode, hkeyCount, hkeys, hvalueCount, hvalues⟩ := holds_pack_iff.mp h
  obtain ⟨huserLt, huserEq⟩ := bmod_eq_iff.mpr ⟨hm.userDef, rfl⟩
  have hkeyLimit := hm.keyCount
  have hvalueLimit := hm.valueCount
  rw [if_neg (by rw [hfull]; simp), except_bind_eq_ok_iff]
  refine ⟨_, (readLe_eq_ok_iff (by omega)).mpr ⟨hm.length_pack_lt, htotal⟩, ?_⟩
  rw [except_bind_eq_ok_iff]
  refine ⟨_, (readLe_eq_ok_iff (by omega)).mpr ⟨huserLt, huserDef⟩, ?_⟩
  rw [except_bind_eq_ok_iff]
  refine ⟨_, (readLe_eq_ok_iff (by omega)).mpr ⟨m.mt.code_lt, hcode⟩, ?_⟩
  rw [MessageType.ofCode_code]
  rw [except_bind_eq_ok_iff]
  refine ⟨_, (readLe_eq_ok_iff (by omega)).mpr ⟨?_, hkeyCount⟩, ?_⟩
  · exact lt_of_le_of_lt hkeyLimit (by norm_num [maxKeyCount])
  rw [if_neg (by omega), except_bind_eq_ok_iff]
  refine ⟨_, (unpackStrings_eq_ok_iff hmaxKey).mpr ⟨rfl, hm.keySize, hkeys, rfl⟩, ?_⟩
  rw [except_bind_eq_ok_iff]
  refine ⟨_, (readLe_eq_ok_iff (by omega)).mpr ⟨?_, hvalueCount⟩, ?_⟩
  · exact lt_of_le_of_lt hvalueLimit (by norm_num [maxValueCount])
  rw [if_neg (by omega), except_bind_eq_ok_iff]
  refine ⟨_, (unpackStrings_eq_ok_iff hmaxValue).mpr ⟨rfl, hm.valueSize, hvalues, rfl⟩, ?_⟩
  rw [if_neg (by rw [not_not, length_pack_eq]), huserEq]

/-- Both directions of the round trip; different messages have different encodings. -/
theorem unpack_inverts_pack :
    (∀ m : SmemMessage, m.WithinLimits → ∀ rest : Bytes,
      unpack (pack m ++ rest) = .ok (m, (pack m).length)) ∧
    (∀ (buffer : Bytes) (m : SmemMessage) (totalSize : ℕ), unpack buffer = .ok (m, totalSize) →
      m.WithinLimits ∧ totalSize ≤ buffer.length ∧ buffer.take totalSize = pack m) ∧
    ∀ m₁ m₂ : SmemMessage, m₁.WithinLimits → m₂.WithinLimits → pack m₁ = pack m₂ → m₁ = m₂ := by
  have hround : ∀ m : SmemMessage, m.WithinLimits → ∀ rest : Bytes,
      unpack (pack m ++ rest) = .ok (m, (pack m).length) := fun m hm rest =>
    unpack_eq_ok_iff.mpr ⟨hm, rfl, holds_zero_append _ _⟩
  refine ⟨hround, ?_, ?_⟩
  · intro buffer m totalSize h
    obtain ⟨hm, rfl, hholds⟩ := unpack_eq_ok_iff.mp h
    have hle := hholds.le (ne_nil_of_length_pos (by rw [length_pack_eq]; omega))
    exact ⟨hm, by omega, hholds⟩
  intro m₁ m₂ h₁ h₂ hpack
  have h := hround m₁ h₁ []
  rw [hpack, hround m₂ h₂ [], Except.ok.injEq, Prod.mk.injEq] at h
  exact h.1.symm

/-- A request of the client, with two bytes behind it. -/
theorem unpack_inverts_pack_set :
    unpack (pack (StoreOp.set [107] [7]).message ++ [1, 2]) =
      .ok ((StoreOp.set [107] [7]).message, 52) :=
  unpack_inverts_pack.1 (StoreOp.set [107] [7]).message
    ⟨by decide, by decide, by decide, by decide, by decide⟩ [1, 2]

end ConfigStore
