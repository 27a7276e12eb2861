import Kronos.Lib.BytesOrder
import Kronos.Proofs.BlockFormat

/-!
# Keys and events are their bytes

The encodings lose nothing and leave nothing over: every string of the right
length is the encoding of what it decodes to. For keys the bytes also compare
as the keys do, the first field that differs deciding on both sides.
-/

namespace Kronos

/-! ## Keys -/

theorem Key.lt_iff {a b : Key} :
    a < b ↔ a.symbol_id.toNat < b.symbol_id.toNat ∨
      a.symbol_id = b.symbol_id ∧ (a.timestamp_ns.toNat < b.timestamp_ns.toNat ∨
        a.timestamp_ns = b.timestamp_ns ∧ a.sequence_id.toNat < b.sequence_id.toNat) := by
  change Key.tie a < Key.tie b ↔ _
  simp only [tie, Prod.Lex.toLex_lt_toLex, UInt32.toNat_inj, UInt64.toNat_inj]

theorem Key.encode_lt_iff (a b : Key) : a.encode < b.encode ↔ a < b := by
  rw [Key.lt_iff, Key.encode, Key.encode, List.append_assoc, List.append_assoc,
    BigEndian.append_lt_append_iff (by simp), BigEndian.append_lt_append_iff (by simp),
    BigEndian.bytes_lt_iff (by rfl), BigEndian.bytes_lt_iff (by rfl),
    BigEndian.bytes_lt_iff (by rfl), BigEndian.bytes_inj (by rfl), BigEndian.bytes_inj (by rfl),
    UInt32.toBitVec_inj, UInt64.toBitVec_inj]
  rfl

theorem Key.encode_decode {x : Bytes} (h : x.length = kEncodedSize) :
    (Key.decode x).encode = x := by
  have hlen : x.length = 20 := h
  have hid : BigEndian.bytes 4 (BigEndian.value 32 4 x) = x.take 4 :=
    BigEndian.bytes_value (by rfl) (by omega)
  have hts : BigEndian.bytes 8 (BigEndian.value 64 8 (x.drop 4)) = (x.drop 4).take 8 :=
    BigEndian.bytes_value (by rfl) (by rw [List.length_drop]; omega)
  have hseq : BigEndian.bytes 8 (BigEndian.value 64 8 (x.drop 12)) = x.drop 12 := by
    rw [BigEndian.bytes_value (by rfl) (by rw [List.length_drop]; omega),
      List.take_of_length_le (by rw [List.length_drop]; omega)]
  have hmid : x.drop 12 = (x.drop 4).drop 8 := by rw [List.drop_drop]
  calc (Key.decode x).encode
      = BigEndian.bytes 4 (BigEndian.value 32 4 x) ++
        BigEndian.bytes 8 (BigEndian.value 64 8 (x.drop 4)) ++
        BigEndian.bytes 8 (BigEndian.value 64 8 (x.drop 12)) := rfl
    _ = x.take 4 ++ ((x.drop 4).take 8 ++ (x.drop 4).drop 8) := by
        rw [hid, hts, hseq, hmid, List.append_assoc]
    _ = x := by rw [List.take_append_drop, List.take_append_drop]

/-- `Key::encode` and `Key::decode` are inverse to each other, and the bytes
are in the order of the keys. -/
theorem Key.encode_order_iso :
    (∀ a b : Key, a < b ↔ a.encode < b.encode) ∧
    (∀ k : Key, k.encode.length = kEncodedSize ∧ Key.decode k.encode = k) ∧
    ∀ x : Bytes, x.length = kEncodedSize → (Key.decode x).encode = x := by
  apply And.intro
  · intro a b
    exact (Key.encode_lt_iff a b).symm
  · apply And.intro
    · intro k
      exact ⟨Key.encode_length k, Key.decode_encode k⟩
    · intro x hx
      exact Key.encode_decode hx

/-! ## Events -/

/-- A field that is read and written again stands in front of what is left. -/
theorem write_le_read_le {n w : Nat} (hw : w = 8 * n) {p r : Bytes} (hp : n ≤ p.length)
    (hr : r = p.drop n) : write_le n (read_le n p : BitVec w) ++ r = p := by
  have htake : LittleEndian.value w n p = LittleEndian.value w n (p.take n) := by
    apply LittleEndian.value_congr
    intro i hi
    simp [List.getD_eq_getElem?_getD, hi]
  have hlen : (p.take n).length = n := by simp [hp]
  have h := LittleEndian.bytes_value (p.take n)
  rw [hlen] at h
  subst hw
  rw [write_le, read_le, htake, h, hr, List.take_append_drop]

/-- The byte of `event_type`. -/
theorem getD_cons_drop {p r : Bytes} (hp : 1 ≤ p.length) (hr : r = p.drop 1) :
    [p.getD 0 0] ++ r = p := by
  cases p with
  | nil => simp at hp
  | cons b p => rw [hr]; rfl

theorem Event.encode_decode {x : Bytes} (h : x.length = kEncodedSize) :
    (Event.decode x).encode = x := by
  have hlen : x.length = 65 := h
  have hlast : ∀ p : Bytes, p.length = 8 → write_le 8 (read_le 8 p : BitVec 64) = p := by
    intro p hp
    have := write_le_read_le (w := 64) (n := 8) (by rfl) (p := p) (r := []) (by omega)
      (by rw [List.drop_of_length_le (by omega)])
    rwa [List.append_nil] at this
  simp only [Event.encode, List.append_assoc, write_le_signed_eq]
  apply write_le_read_le (by rfl) (by omega)
  apply write_le_read_le (by rfl) (by simp; omega)
  apply write_le_read_le (by rfl) (by simp; omega)
  apply getD_cons_drop (by simp; omega)
  apply write_le_read_le (by rfl) (by simp; omega)
  apply write_le_read_le (by rfl) (by simp; omega)
  apply write_le_read_le (by rfl) (by simp; omega)
  apply write_le_read_le (by rfl) (by simp; omega)
  apply write_le_read_le (by rfl) (by simp; omega)
  apply write_le_read_le (by rfl) (by simp; omega)
  apply hlast
  simp
  omega

/-- `Event::encode` and `Event::decode` are inverse to each other. -/
theorem Event.encode_iso :
    (∀ e : Event, e.encode.length = kEncodedSize ∧ Event.decode e.encode = e) ∧
    ∀ x : Bytes, x.length = kEncodedSize → (Event.decode x).encode = x := by
  apply And.intro
  · intro e
    exact ⟨Event.encode_length e, Event.decode_encode e⟩
  · intro x hx
    exact Event.encode_decode hx

end Kronos
