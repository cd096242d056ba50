/-
What the message decoder reads.

`Unpack` casts the bytes at its running offset and checks only the strings it copies: the size
of a key or a value, and the number of values, are read wherever the strings before them end.
`unpackReads` lists the reads in their order, up to the first one that leaves the buffer.
-/
import MemFabric.MessageCodec

namespace ConfigStore

open List

open Records

/-! ### The reads -/

/-- The reads of one of the two loops of `Unpack`, each an offset and a width. -/
def stringReads (buffer : Bytes) (maxSize : ℕ) : ℕ → ℕ → List (ℕ × ℕ)
  | 0, _ => []
  | count + 1, length =>
    (length, 8) ::
      match readLe buffer 8 length with
      | .error _ => []
      | .ok size =>
        if size > maxSize ∨ length + 8 + size > buffer.length then []
        else (length + 8, size) :: stringReads buffer maxSize count (length + 8 + size)

/-- The reads of `Unpack`.  `Full` reads the total size before `Unpack` does, and
what a read outside the buffer returns is not known, so the list ends with it. -/
def unpackReads (buffer : Bytes) : List (ℕ × ℕ) :=
  if buffer.length < baseSize then []
  else if full buffer = false then [(0, 8)]
  else
    [(0, 8), (0, 8), (8, 8), (16, 2)] ++
      match MessageType.ofCode (Bytes.leValue ((buffer.drop 16).take 2)) with
      | none => []
      | some _ =>
        (18, 8) ::
          let keyCount := Bytes.leValue ((buffer.drop 18).take 8)
          if keyCount > maxKeyCount then []
          else
            stringReads buffer maxKeySize keyCount 26 ++
              match unpackStrings buffer maxKeySize keyCount 26 with
              | .error _ => []
              | .ok keys =>
                (keys.2, 8) ::
                  match readLe buffer 8 keys.2 with
                  | .error _ => []
                  | .ok valueCount =>
                    if valueCount > maxValueCount then []
                    else stringReads buffer maxValueSize valueCount (keys.2 + 8)

/-- All offsets of a read are below the length of the buffer. -/
def ReadInside (buffer : Bytes) (r : ℕ × ℕ) : Prop :=
  ∀ o, r.1 ≤ o → o < r.1 + r.2 → o < buffer.length

/-- `Unpack` reads no byte outside its input. -/
def ReadsInside (buffer : Bytes) : Prop := ∀ r ∈ unpackReads buffer, ReadInside buffer r

variable {buffer : Bytes} {offset w : ℕ}

theorem readInside_iff (hw : 0 < w) :
    ReadInside buffer (offset, w) ↔ offset + w ≤ buffer.length := by
  constructor
  · intro h
    have hlast := h (offset + w - 1) (show offset ≤ _ by omega) (show _ < offset + w by omega)
    omega
  · intro h o _ ho
    exact lt_of_lt_of_le ho h

theorem readInside_of_le {r : ℕ × ℕ} (h : r.1 + r.2 ≤ buffer.length) : ReadInside buffer r :=
  fun _ _ ho => lt_of_lt_of_le ho h

theorem readLe_eq_error_iff {e : UnpackError} :
    readLe buffer w offset = .error e ↔ buffer.length < offset + w ∧ e = .outOfBounds := by
  rw [readLe]
  split
  · rename_i hle
    exact ⟨by simp, fun h => absurd h.1 (Nat.not_lt.mpr hle)⟩
  rename_i hlt
  rw [Except.error.injEq]
  exact ⟨fun h => ⟨Nat.lt_of_not_le hlt, h.symm⟩, fun h => h.2.symm⟩

theorem readLe_of_le (h : offset + w ≤ buffer.length) :
    readLe buffer w offset = .ok (Bytes.leValue ((buffer.drop offset).take w)) := by
  rw [readLe, if_pos h]

theorem except_bind_eq_error_iff {ε α β : Type} {x : Except ε α} {f : α → Except ε β} {e : ε} :
    x >>= f = .error e ↔ x = .error e ∨ ∃ a, x = .ok a ∧ f a = .error e := by
  cases x with
  | error e' | ok a => simp [bind, Except.bind]

theorem ite_refused_eq_iff {β : Type} {P : Prop} [Decidable P] {x : Except UnpackError β} :
    (if P then .error .refused else x) = .error .outOfBounds ↔ ¬ P ∧ x = .error .outOfBounds := by
  split
  · simp [*]
  · simp [*]

theorem stringReads_inside_iff {maxSize : ℕ} :
    ∀ {count offset : ℕ}, (∀ r ∈ stringReads buffer maxSize count offset, ReadInside buffer r) ↔
      unpackStrings buffer maxSize count offset ≠ .error .outOfBounds := by
  intro count
  induction count with
  | zero => exact fun {_} => ⟨fun _ => nofun, fun _ r hr => nomatch hr⟩
  | succ count ih =>
    intro offset
    rw [stringReads, unpackStrings, forall_mem_cons, readInside_iff (by omega), ne_eq,
      except_bind_eq_error_iff, readLe_eq_error_iff]
    by_cases hin : offset + 8 ≤ buffer.length
    · rw [readLe_of_le hin]
      dsimp only
      generalize Bytes.leValue ((buffer.drop offset).take 8) = size
      simp only [hin, true_and, Nat.not_lt.mpr hin, false_and, false_or, Except.ok.injEq,
        exists_eq_left']
      split
      · simp
      have hcontent : ReadInside buffer (offset + 8, size) :=
        readInside_of_le (show offset + 8 + size ≤ _ by omega)
      rw [forall_mem_cons, ih, except_bind_eq_error_iff]
      simp only [hcontent, true_and, reduceCtorEq, and_false, exists_false, or_false, ne_eq]
    · simp only [hin, false_and, Nat.lt_of_not_le hin, true_and, true_or, not_true_eq_false]

theorem full_iff :
    full buffer = true ↔
      baseSize ≤ buffer.length ∧ Bytes.leValue (buffer.take 8) ≤ buffer.length := by
  rw [full, Bool.and_eq_true, decide_eq_true_iff, decide_eq_true_iff]

/-- Where the decoder can leave a buffer that `Full` accepts: in the keys, at the
number of values, or in the values. -/
theorem unpack_eq_outOfBounds_iff (hfull : full buffer = true) :
    unpack buffer = .error .outOfBounds ↔
      (∃ mt, MessageType.ofCode (Bytes.leValue ((buffer.drop 16).take 2)) = some mt) ∧
      ∃ keyCount, readLe buffer 8 18 = .ok keyCount ∧ keyCount ≤ maxKeyCount ∧
        (unpackStrings buffer maxKeySize keyCount 26 = .error .outOfBounds ∨
          ∃ keys, unpackStrings buffer maxKeySize keyCount 26 = .ok keys ∧
            (buffer.length < keys.2 + 8 ∨ ∃ valueCount, readLe buffer 8 keys.2 = .ok valueCount ∧
                valueCount ≤ maxValueCount ∧
                unpackStrings buffer maxValueSize valueCount (keys.2 + 8) =
                  .error .outOfBounds)) := by
  have hlen : 34 ≤ buffer.length := (full_iff.mp hfull).1
  -- The four words of the header lie inside.
  have htotal : readLe buffer 8 0 = .ok _ := readLe_of_le (by omega)
  have huserDef : readLe buffer 8 8 = .ok _ := readLe_of_le (by omega)
  have hcode : readLe buffer 2 16 = .ok _ := readLe_of_le (by omega)
  have hkeyCount : readLe buffer 8 18 = .ok _ := readLe_of_le (by omega)
  have hnotFull : ¬ full buffer = false := by rw [hfull]; decide
  rw [unpack, if_neg hnotFull, htotal, huserDef, hcode, hkeyCount]
  show (match MessageType.ofCode _ with
    | none => _
    | some mt => _) = _ ↔ _
  cases MessageType.ofCode (Bytes.leValue ((buffer.drop 16).take 2)) with
  | none => simp
  | some mt =>
    show (if _ then _ else _) = _ ↔ _
    simp only [Option.some_inj, exists_eq', true_and, Except.ok.injEq, exists_eq_left']
    generalize Bytes.leValue ((buffer.drop 18).take 8) = keyCount
    by_cases hlimit : keyCount > maxKeyCount
    · rw [if_pos hlimit]
      exact ⟨by simp, fun h => absurd h.1 (Nat.not_le.mpr hlimit)⟩
    rw [if_neg hlimit, except_bind_eq_error_iff]
    simp only [Nat.not_lt.mp hlimit, true_and]
    refine or_congr_right (exists_congr fun keys => and_congr_right fun _ => ?_)
    rw [except_bind_eq_error_iff, readLe_eq_error_iff, and_iff_left rfl]
    refine or_congr_right (exists_congr fun valueCount => and_congr_right fun _ => ?_)
    by_cases hlimit' : valueCount > maxValueCount
    · rw [if_pos hlimit']
      exact ⟨by simp, fun h => absurd h.1 (Nat.not_le.mpr hlimit')⟩
    rw [if_neg hlimit', except_bind_eq_error_iff, and_iff_right (Nat.not_lt.mp hlimit')]
    -- The check of the total size, behind the values, refuses without a read.
    refine or_iff_left ?_
    rintro ⟨values, -, h⟩
    split at h
    · cases h
    · cases h

/-- The list of reads is that of the decoder: one of them lies outside exactly if the
decoder fails for it. -/
theorem readsInside_iff_unpack : ReadsInside buffer ↔ unpack buffer ≠ .error .outOfBounds := by
  rw [ReadsInside, unpackReads]
  by_cases hbase : buffer.length < baseSize
  · have hnotFull : full buffer = false := by
      rw [← Bool.not_eq_true, full_iff]
      omega
    rw [if_pos hbase, unpack, if_pos hnotFull]
    exact ⟨fun _ => by simp, fun _ r hr => absurd hr not_mem_nil⟩
  have hlen : 34 ≤ buffer.length := Nat.not_lt.mp hbase
  have hword : ReadInside buffer (0, 8) := readInside_of_le (show 0 + 8 ≤ _ by omega)
  rw [if_neg hbase]
  cases hfull : full buffer with
  | false =>
    rw [if_pos rfl, unpack, if_pos hfull, forall_mem_singleton]
    exact ⟨fun _ => by simp, fun _ => hword⟩
  | true =>
    have hhdr : ∀ r ∈ [(0, 8), (0, 8), (8, 8), (16, 2)], ReadInside buffer r := by
      intro r hr
      refine readInside_of_le (le_trans ?_ hlen)
      revert r
      decide
    have hkeyCount : readLe buffer 8 18 = .ok _ := readLe_of_le (by omega)
    have hcountInside : ReadInside buffer (18, 8) := readInside_of_le (show 18 + 8 ≤ _ by omega)
    rw [if_neg (by decide), forall_mem_append, and_iff_right hhdr, ne_eq,
      unpack_eq_outOfBounds_iff hfull, hkeyCount]
    cases MessageType.ofCode (Bytes.leValue ((buffer.drop 16).take 2)) with
    | none => simp
    | some mt =>
      simp only [forall_mem_cons, hcountInside, Option.some_inj, exists_eq', true_and,
        Except.ok.injEq, exists_eq_left']
      generalize Bytes.leValue ((buffer.drop 18).take 8) = keyCount
      by_cases hlimit : keyCount > maxKeyCount
      · rw [if_pos hlimit]
        simp [Nat.not_le.mpr hlimit]
      rw [if_neg hlimit, forall_mem_append, stringReads_inside_iff, ne_eq,
        and_iff_right (Nat.not_lt.mp hlimit), not_or]
      refine and_congr_right fun hkeys => ?_
      cases hread : unpackStrings buffer maxKeySize keyCount 26 with
      | error e => simp
      | ok keys =>
        simp only [forall_mem_cons, readInside_iff (show 0 < 8 by decide),
          Except.ok.injEq, exists_eq_left']
        by_cases hin : keys.2 + 8 ≤ buffer.length
        · rw [readLe_of_le hin]
          simp only [hin, Nat.not_lt.mpr hin, Except.ok.injEq, exists_eq_left', true_and, false_or]
          split
          · rename_i hlimit'
            simp [Nat.not_le.mpr hlimit']
          · rename_i hlimit'
            rw [stringReads_inside_iff, and_iff_right (Nat.not_lt.mp hlimit')]
        · simp only [hin, Nat.lt_of_not_le hin, false_and, true_or, not_true_eq_false]

/-! ### Buffers that break off -/

/-- Of `count` packed strings from `offset` on, the buffer holds some and then fewer
than the eight bytes of the next size. -/
def EndsInSize (buffer : Bytes) (maxSize count offset : ℕ) : Prop :=
  ∃ strings : List Bytes, strings.length < count ∧ (∀ bs ∈ strings, bs.length ≤ maxSize) ∧
    Holds buffer offset (strings.flatMap packBytes) ∧
    buffer.length < offset + (strings.flatMap packBytes).length + 8

/-- The buffer has a header that `Unpack` accepts and breaks off in the size of a key,
in the number of values or in the size of a value, all before it being well formed. -/
def RunsShort (buffer : Bytes) : Prop :=
  full buffer = true ∧ (∃ mt : MessageType, Holds buffer 16 (Bytes.le 2 mt.code)) ∧
    ∃ keyCount ≤ maxKeyCount, Holds buffer 18 (Bytes.le 8 keyCount) ∧
      (EndsInSize buffer maxKeySize keyCount 26 ∨
        ∃ keys : List Bytes, keys.length = keyCount ∧ (∀ k ∈ keys, k.length ≤ maxKeySize) ∧
          Holds buffer 26 (keys.flatMap packBytes) ∧
          (buffer.length < 26 + (keys.flatMap packBytes).length + 8 ∨ ∃ valueCount ≤ maxValueCount,
              Holds buffer (26 + (keys.flatMap packBytes).length) (Bytes.le 8 valueCount) ∧
              EndsInSize buffer maxValueSize valueCount (26 + (keys.flatMap packBytes).length + 8)))

theorem unpackStrings_eq_outOfBounds_iff {maxSize : ℕ} (hmax : maxSize < 256 ^ 8) :
    ∀ {count offset : ℕ}, unpackStrings buffer maxSize count offset = .error .outOfBounds ↔
      EndsInSize buffer maxSize count offset := by
  intro count
  induction count with
  | zero =>
    intro offset
    refine ⟨(fun h => by cases h), ?_⟩
    rintro ⟨strings, hcount, -⟩
    exact absurd hcount (Nat.not_lt_zero _)
  | succ count ih =>
    intro offset
    rw [unpackStrings, except_bind_eq_error_iff, readLe_eq_error_iff, and_iff_left rfl]
    simp only [ite_refused_eq_iff, except_bind_eq_error_iff, reduceCtorEq, and_false, exists_false,
      or_false]
    rw [exists_readLe_iff hmax (P := fun size _ =>
      unpackStrings buffer maxSize count (offset + 8 + size) = .error .outOfBounds)]
    constructor
    · rintro (hout | ⟨bs, hle, hhead, hrest⟩)
      · exact ⟨[], Nat.succ_pos count, by simp, rfl, by simpa using hout⟩
      obtain ⟨strings, hcount, hlimit, hholds, hends⟩ := ih.mp hrest
      refine ⟨bs :: strings, Nat.succ_lt_succ hcount, forall_mem_cons.mpr ⟨hle, hlimit⟩, ?_⟩
      rw [flatMap_cons, holds_append, length_append, length_packBytes, ← Nat.add_assoc]
      exact ⟨⟨hhead, hholds⟩, by omega⟩
    rintro ⟨strings, hcount, hlimit, hholds, hends⟩
    cases strings with
    | nil => exact .inl (by simpa using hends)
    | cons bs rest =>
      rw [flatMap_cons, holds_append, length_packBytes, ← Nat.add_assoc] at hholds
      rw [flatMap_cons, length_append, length_packBytes] at hends
      obtain ⟨hle, hlimit⟩ := forall_mem_cons.mp hlimit
      exact .inr ⟨bs, hle, hholds.1,
        ih.mpr ⟨rest, Nat.lt_of_succ_lt_succ hcount, hlimit, hholds.2, by omega⟩⟩

theorem runsShort_iff_unpack : RunsShort buffer ↔ unpack buffer = .error .outOfBounds := by
  have hmaxKey : maxKeySize < 256 ^ 8 := by norm_num [maxKeySize]
  have hmaxValue : maxValueSize < 256 ^ 8 := by norm_num [maxValueSize]
  -- A count within its limit is read exactly if the buffer holds its eight bytes.
  have hcount : ∀ {offset count limit : ℕ}, limit < 256 ^ 8 → count ≤ limit →
      (Holds buffer offset (Bytes.le 8 count) ↔ readLe buffer 8 offset = .ok count) := by
    intro offset count limit hlimit hle
    rw [readLe_eq_ok_iff (by decide)]
    exact ⟨fun h => ⟨lt_of_le_of_lt hle hlimit, h⟩, fun h => h.2⟩
  cases hfull : full buffer with
  | false =>
    rw [RunsShort, unpack, if_pos hfull, hfull]
    exact ⟨by simp, by simp⟩
  | true =>
    have hlen : 34 ≤ buffer.length := (full_iff.mp hfull).1
    have hcode : readLe buffer 2 16 = .ok _ := readLe_of_le (by omega)
    have hmt : (∃ mt : MessageType, Holds buffer 16 (Bytes.le 2 mt.code)) ↔
        ∃ mt, MessageType.ofCode (Bytes.leValue ((buffer.drop 16).take 2)) = some mt := by
      refine exists_congr fun mt => ?_
      rw [MessageType.ofCode_eq_some_iff, ← Except.ok.injEq, ← hcode, readLe_eq_ok_iff (by decide)]
      exact ⟨fun h => ⟨mt.code_lt, h⟩, fun h => h.2⟩
    rw [RunsShort, unpack_eq_outOfBounds_iff hfull, hfull, eq_self, true_and, hmt]
    refine and_congr_right fun _ => exists_congr fun keyCount => ?_
    refine (and_congr_right fun hle => and_congr (hcount (by norm_num [maxKeyCount]) hle)
      (or_congr (unpackStrings_eq_outOfBounds_iff hmaxKey).symm ?_)).trans and_left_comm
    rw [exists_unpackStrings_iff hmaxKey (P := fun stop => buffer.length < stop + 8 ∨
      ∃ valueCount, readLe buffer 8 stop = .ok valueCount ∧ valueCount ≤ maxValueCount ∧
        unpackStrings buffer maxValueSize valueCount (stop + 8) = .error .outOfBounds)]
    refine exists_congr fun keys => and_congr_right fun _ => and_congr_right fun _ =>
      and_congr_right fun _ => or_congr_right (exists_congr fun valueCount => ?_)
    exact (and_congr_right fun hle => and_congr (hcount (by norm_num [maxValueCount]) hle)
      (unpackStrings_eq_outOfBounds_iff hmaxValue).symm).trans and_left_comm

/-- The reads stay inside exactly if the buffer does not break off in a size or the number of
values, behind a part that decodes. -/
theorem readsInside_iff (buffer : Bytes) : ReadsInside buffer ↔ ¬ RunsShort buffer := by
  rw [readsInside_iff_unpack, runsShort_iff_unpack]

/-- A packed SET with one key and one value, and bytes behind it. -/
theorem readsInside_packed :
    ReadsInside (pack { mt := .set, keys := [[107]], values := [[1, 2]] } ++ [0, 0, 0]) := by
  have hm : SmemMessage.WithinLimits { mt := .set, keys := [[107]], values := [[1, 2]] } :=
    ⟨by decide, by decide, by decide, by decide, by decide⟩
  rw [readsInside_iff, runsShort_iff_unpack, unpack_eq_ok_iff.mpr ⟨hm, rfl, holds_zero_append _ _⟩]
  nofun

/-- Thirty-four bytes: the total size, a GET with one key, and an empty key.  The number
of values is read at offset 34, and the decoder goes on with what it finds there. -/
theorem reads_behind_size :
    let buffer := Bytes.le 8 34 ++ Bytes.le 8 0 ++ Bytes.le 2 1 ++ Bytes.le 8 1 ++ Bytes.le 8 0
    buffer.length = 34 ∧ (34, 8) ∈ unpackReads buffer ∧ ¬ ReadsInside buffer := by
  intro buffer
  have hread : (34, 8) ∈ unpackReads buffer := by decide +kernel
  have hlen : buffer.length = 34 := by decide +kernel
  refine ⟨hlen, hread, fun h => ?_⟩
  have hlt : 34 < buffer.length := h _ hread 34 (by decide) (by decide)
  omega

end ConfigStore
