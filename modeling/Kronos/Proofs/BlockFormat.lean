import Kronos.Ref.TableFile

/-!
# Encodings read back

Every encoding of a table file is fields of fixed size one after the other, so
reading one back is dropping what stands in front of it. Counts are the one
thing that can be too large for its field: the index of a file with 2^32 blocks
or more reads back as the index of the first few.
-/

namespace Kronos

/-! ## Fields -/

@[simp] theorem w32_length (v : UInt32) : (w32 v).length = 4 := by simp [w32, write_le]

@[simp] theorem w64_length (v : UInt64) : (w64 v).length = 8 := by simp [w64, write_le]

@[simp] theorem r32_w32 (v : UInt32) (r : Bytes) : r32 (w32 v ++ r) = v :=
  congrArg UInt32.ofBitVec (read_le_write_le (n := 4) (by rfl) v.toBitVec r)

@[simp] theorem r64_w64 (v : UInt64) (r : Bytes) : r64 (w64 v ++ r) = v :=
  congrArg UInt64.ofBitVec (read_le_write_le (n := 8) (by rfl) v.toBitVec r)

@[simp] theorem r32_w32_last (v : UInt32) : r32 (w32 v) = v := by
  have h := r32_w32 v []
  rwa [List.append_nil] at h

@[simp] theorem r64_w64_last (v : UInt64) : r64 (w64 v) = v := by
  have h := r64_w64 v []
  rwa [List.append_nil] at h

@[simp] theorem drop_w32 (v : UInt32) (r : Bytes) : (w32 v ++ r).drop 4 = r :=
  List.drop_left' (w32_length v)

@[simp] theorem drop_w64 (v : UInt64) (r : Bytes) : (w64 v ++ r).drop 8 = r :=
  List.drop_left' (w64_length v)

namespace Key

@[simp] theorem encode_length (k : Key) : k.encode.length = kEncodedSize := by
  simp [encode, kEncodedSize]

theorem decode_encode (k : Key) : decode k.encode = k := by
  have hid : BigEndian.value 32 4 k.encode = k.symbol_id.toBitVec := by
    rw [encode, List.append_assoc, BigEndian.value_bytes (by rfl)]
  have hts : BigEndian.value 64 8 (k.encode.drop 4) = k.timestamp_ns.toBitVec := by
    rw [encode, List.append_assoc, List.drop_left' (BigEndian.bytes_length _),
      BigEndian.value_bytes (by rfl)]
  have hseq : BigEndian.value 64 8 (k.encode.drop 12) = k.sequence_id.toBitVec := by
    have h := BigEndian.value_bytes (n := 8) (by rfl) k.sequence_id.toBitVec []
    rwa [encode, List.drop_left' (by simp), ← List.append_nil (BigEndian.bytes 8 _)]
  rw [decode, hid, hts, hseq]

@[simp] theorem decode_take (k : Key) (r : Bytes) :
    decode ((k.encode ++ r).take kEncodedSize) = k := by
  rw [List.take_left' (encode_length k), decode_encode]

@[simp] theorem drop_encode (k : Key) (r : Bytes) :
    (k.encode ++ r).drop kEncodedSize = r := List.drop_left' (encode_length k)

end Key

theorem flatMap_length {α : Type} {encode : α → Bytes} {size : Nat}
    (h : ∀ a, (encode a).length = size) (l : List α) :
    (l.flatMap encode).length = l.length * size := by
  induction l with
  | nil => simp
  | cons a l ih =>
      rw [List.flatMap_cons, List.length_append, h, ih, List.length_cons, Nat.succ_mul,
        Nat.add_comm]

/-- Reading as many records as a count says, or fewer, reads the first of what
was written. -/
theorem read_records_take {α : Type} {encode : α → Bytes} {decode : Bytes → α} {size : Nat}
    (hsize : ∀ a, (encode a).length = size) (hread : ∀ a, decode (encode a) = a) (n : Nat)
    (l : List α) (hn : n ≤ l.length) (r : Bytes) :
    read_records size decode n (l.flatMap encode ++ r) = l.take n := by
  induction n generalizing l with
  | zero => rfl
  | succ n ih =>
      cases l with
      | nil => simp at hn
      | cons a l =>
          rw [read_records, List.flatMap_cons, List.append_assoc, List.take_left' (hsize a),
            List.drop_left' (hsize a), hread, ih l (Nat.le_of_succ_le_succ hn), List.take_succ_cons]

/-! ## Blocks -/

namespace BlockBuilder

variable {b : BlockBuilder}

theorem data_length (events : List Event) (min_k max_k : Key) :
    (data events min_k max_k).length + 4 = encodedSize events.length := by
  simp only [data, List.length_append, w32_length, Key.encode_length, encodedSize,
    flatMap_length Event.encode_length]
  omega

/-- What a block of events is written as. -/
theorem finish_eq (h : b.events ≠ []) : ∃ min_k max_k,
    b.finish = data b.events min_k max_k ++ w32 (crc32c (data b.events min_k max_k)) := by
  obtain ⟨e, es, he⟩ := List.exists_cons_of_ne_nil h
  obtain ⟨back, hback⟩ := Option.ne_none_iff_exists'.mp (mt List.getLast?_eq_none_iff.mp h)
  rw [finish, hback, he]
  exact ⟨_, _, rfl⟩

theorem finish_length (h : b.events ≠ []) : b.finish.length = encodedSize b.events.length := by
  obtain ⟨min_k, max_k, hfinish⟩ := finish_eq h
  rw [hfinish, List.length_append, w32_length, data_length]

theorem r32_finish (h : b.events ≠ []) : r32 b.finish = .ofNat b.events.length := by
  obtain ⟨min_k, max_k, hfinish⟩ := finish_eq h
  rw [hfinish, data]
  simp only [List.append_assoc, r32_w32]

/-- A block reads back, as long as its count fits. -/
theorem decode_finish (h : b.events ≠ []) (hcount : b.events.length < 2 ^ 32) :
    ∃ m, Block.decode b.finish = .ok ⟨m, b.events⟩ := by
  have hlen := finish_length h
  obtain ⟨min_k, max_k, hfinish⟩ := finish_eq h
  have hdata := data_length b.events min_k max_k
  have hnat : (UInt32.ofNat b.events.length).toNat = b.events.length :=
    UInt32.toNat_ofNat_of_lt' hcount
  have hread := r32_finish h
  have hdrop : b.finish.drop (encodedSize b.events.length - 4) =
      w32 (crc32c (data b.events min_k max_k)) := by
    rw [hfinish]
    exact List.drop_left' (by omega)
  have htake : b.finish.take (encodedSize b.events.length - 4) = data b.events min_k max_k := by
    rw [hfinish]
    exact List.take_left' (by omega)
  have hevents : read_records Event.kEncodedSize Event.decode b.events.length
      (b.finish.drop 4) = b.events := by
    rw [hfinish, data]
    simp only [List.append_assoc, drop_w32]
    rw [read_records_take Event.encode_length Event.decode_encode _ _ (Nat.le_refl _),
      List.take_length]
  have hsmall : ¬ b.finish.length < 4 + Key.kEncodedSize * 2 + 4 := by
    rw [hlen, encodedSize]
    omega
  rw [Block.decode, if_neg hsmall]
  simp only [hread, hnat]
  rw [if_neg (by omega), hdrop, htake, r32_w32_last, if_neg (fun hne => hne rfl), hevents]
  exact ⟨_, rfl⟩

end BlockBuilder

/-! ## The index -/

namespace IndexEntry

@[simp] theorem encode_length (e : IndexEntry) : e.encode.length = kEncodedSize := by
  simp [encode, Key.kEncodedSize, kEncodedSize]

theorem decode_encode (e : IndexEntry) : decode e.encode = e := by
  simp only [decode, encode, List.append_assoc, Key.decode_take, Key.drop_encode, r64_w64,
    drop_w64, r32_w32_last]

end IndexEntry

namespace IndexBlock

/-- How many entries the count of an index of `n` says. -/
def readBack (n : Nat) : Nat := n % 2 ^ 32

theorem readBack_le (n : Nat) : readBack n ≤ n := Nat.mod_le _ _

theorem readBack_eq {n : Nat} (h : n < 2 ^ 32) : readBack n = n := Nat.mod_eq_of_lt h

theorem encode_length (ib : IndexBlock) :
    ib.encode.length = 4 + ib.entries.length * IndexEntry.kEncodedSize := by
  rw [encode, List.length_append, w32_length, flatMap_length IndexEntry.encode_length]

/-- An index reads back, up to what its count says. -/
theorem decode_encode (ib : IndexBlock) :
    decode ib.encode = .ok ⟨ib.entries.take (readBack ib.entries.length)⟩ := by
  have hcount : (r32 ib.encode).toNat = readBack ib.entries.length := by
    rw [encode, r32_w32, UInt32.toNat_ofNat']
    rfl
  have hle := readBack_le ib.entries.length
  have hlen := ib.encode_length
  rw [decode, if_neg (by omega)]
  simp only [hcount]
  have hroom := Nat.mul_le_mul_right IndexEntry.kEncodedSize hle
  have hread := read_records_take IndexEntry.encode_length IndexEntry.decode_encode _ _ hle []
  rw [List.append_nil] at hread
  rw [if_neg (by omega), encode, drop_w32, hread]

end IndexBlock

/-! ## The meta block -/

@[simp] theorem encode_meta_length (m : StoredMeta) : (encode_meta m).length = 68 := by
  simp [encode_meta, Key.kEncodedSize]

/-- The numbers of a meta block fit their fields. -/
structure StoredMeta.Fits (m : StoredMeta) : Prop where
  event_count : m.event_count < 2 ^ 64
  data_bytes : m.data_bytes < 2 ^ 64
  level : m.level < 2 ^ 32
  sequence : m.sequence < 2 ^ 64

/-- What a meta block reads back as. -/
def StoredMeta.cut (m : StoredMeta) : StoredMeta :=
  { event_count := m.event_count % 2 ^ 64
    data_bytes := m.data_bytes % 2 ^ 64
    min_key := m.min_key
    max_key := m.max_key
    level := m.level % 2 ^ 32
    sequence := m.sequence % 2 ^ 64 }

theorem decode_meta_encode_meta (m : StoredMeta) : decode_meta (encode_meta m) = .ok m.cut := by
  rw [decode_meta, if_neg (by rw [encode_meta_length]; decide)]
  have htake : ∀ (k : Key) (r : Bytes), Key.decode ((k.encode ++ r).take 20) = k := Key.decode_take
  have hdrop : ∀ (k : Key) (r : Bytes), (k.encode ++ r).drop 20 = r := Key.drop_encode
  simp only [encode_meta, List.append_assoc, r64_w64, drop_w64, htake, hdrop, r32_w32, drop_w32,
    r64_w64_last, UInt64.toNat_ofNat', UInt32.toNat_ofNat']
  rfl

end Kronos
