import Kronos.Lib.Framing
import Kronos.Ref.Wal

/-!
# A segment is a stream of self-delimiting records

`read_loop` walks a file by offset, and everything it decides at an offset it
decides from the header there and the payload the header announces. That is a
`Framing.Format`, so the loop is a scan: its records are the scan's, its clean
end is where the scan stops, and a segment is torn exactly when the scan stops
short of the file.

What the writer puts down is a record of that format, so the library's laws
about whole and torn records are laws about segments.
-/

namespace Kronos

open Framing

theorem read_u32_eq (p : Bytes) : read_u32 p = .ofBitVec (read_le 4 p) := by
  rw [← UInt32.toBitVec_inj]
  simp [read_u32, read_le, LittleEndian.value, List.range_succ]

theorem read_u32_write_u32 (v : UInt32) (r : Bytes) : read_u32 (write_u32 v ++ r) = v := by
  rw [read_u32_eq]
  exact congrArg UInt32.ofBitVec (read_le_write_le (n := 4) (by rfl) v.toBitVec r)

/-! ## The format -/

/-- The payload length a header announces. -/
def walPayloadLen (l : Bytes) : Nat := (read_u32 ((l.take kWalHeaderSize).drop 5)).toNat

/-- The tests of the read loop on what stands at an offset. -/
def WalRecordAt (l : Bytes) : Prop :=
  kWalHeaderSize ≤ l.length ∧
  read_u32 (l.take kWalHeaderSize) = kWalMagic ∧
  (l.take kWalHeaderSize).getD 4 0 = kWalVersion ∧
  kWalHeaderSize + walPayloadLen l ≤ l.length ∧
  wal_crc ((l.take kWalHeaderSize).getD 4 0 :: write_u32 (.ofNat (walPayloadLen l)))
      ((l.drop kWalHeaderSize).take (walPayloadLen l)) =
    read_u32 ((l.take kWalHeaderSize).drop 9)

instance (l : Bytes) : Decidable (WalRecordAt l) := by
  unfold WalRecordAt; infer_instance

/-- The event of a record, if its payload has the size of one. -/
def walEvent (l : Bytes) : Option Event :=
  if walPayloadLen l = Event.kEncodedSize then
    some (Event.decode ((l.drop kWalHeaderSize).take (walPayloadLen l)))
  else none

/-- Every test looks at the header and the announced payload only. -/
theorem walRecordAt_local {l : Bytes} (h : WalRecordAt l) (r : Bytes) :
    WalRecordAt (l.take (kWalHeaderSize + walPayloadLen l) ++ r) ∧
      walPayloadLen (l.take (kWalHeaderSize + walPayloadLen l) ++ r) = walPayloadLen l ∧
      walEvent (l.take (kWalHeaderSize + walPayloadLen l) ++ r) = walEvent l := by
  obtain ⟨h1, h2, h3, h4, h5⟩ := h
  generalize hn : walPayloadLen l = n at *
  have hlen : (l.take (kWalHeaderSize + n)).length = kWalHeaderSize + n := by
    rw [List.length_take]; omega
  have hhdr : (l.take (kWalHeaderSize + n) ++ r).take kWalHeaderSize =
      l.take kWalHeaderSize := by
    rw [List.take_append_of_le_length (by omega), List.take_take,
      Nat.min_eq_left (by omega)]
  have hpl : walPayloadLen (l.take (kWalHeaderSize + n) ++ r) = n := by
    rw [walPayloadLen, hhdr, ← hn]; rfl
  have hpay : ((l.take (kWalHeaderSize + n) ++ r).drop kWalHeaderSize).take n =
      (l.drop kWalHeaderSize).take n := by
    rw [List.drop_append_of_le_length (by omega), List.drop_take,
      List.take_append_of_le_length (by simp; omega), List.take_take]
    simp
  refine ⟨⟨?_, ?_, ?_, ?_, ?_⟩, hpl, ?_⟩
  · rw [List.length_append]; omega
  · rw [hhdr]; exact h2
  · rw [hhdr]; exact h3
  · rw [hpl, List.length_append]; omega
  · rw [hpl, hhdr, hpay]; exact h5
  · rw [walEvent, walEvent, hpl, hn, hpay]

/-- The log's record format. -/
def walFormat : Format UInt8 (Option Event) where
  parse l :=
    if WalRecordAt l then some (walEvent l, kWalHeaderSize + walPayloadLen l) else none
  pos := by
    intro l x n h
    split at h
    · cases h; simp only [kWalHeaderSize]; omega
    · cases h
  le_length := by
    intro l x n h
    split at h
    · next hr => cases h; exact hr.2.2.2.1
    · cases h
  local_ := by
    intro l x n h r
    split at h
    · next hr =>
        cases h
        obtain ⟨h1, h2, h3⟩ := walRecordAt_local hr r
        rw [if_pos h1, h2, h3]
    · cases h

theorem walFormat_parse_some {l : Bytes} (h : WalRecordAt l) :
    walFormat.parse l = some (walEvent l, kWalHeaderSize + walPayloadLen l) := if_pos h

theorem walFormat_parse_none {l : Bytes} (h : ¬ WalRecordAt l) :
    walFormat.parse l = none := if_neg h

theorem walFormat_parse_short {l : Bytes} (h : l.length < kWalHeaderSize) :
    walFormat.parse l = none :=
  walFormat_parse_none fun hr => absurd hr.1 (by omega)

/-! ## The loop is a scan -/

/-- The records among what a scan found. -/
def walRecords (found : List (Nat × Option Event)) : List WALRecord :=
  found.filterMap fun p => p.2.map fun e => ⟨e, p.1⟩

/-- Where no record stands the loop stops; it calls the rest torn when a
header would have fitted. -/
theorem read_loop_stop {file : Bytes} {offset : Nat}
    (h : ¬ WalRecordAt (file.drop offset)) :
    read_loop file offset =
      if offset + kWalHeaderSize ≤ file.length then
        ⟨[], true, file.length - offset, offset⟩
      else ⟨[], false, 0, offset⟩ := by
  rw [read_loop]
  split
  · next hin =>
      simp only []
      split
      · rfl
      · next hmagic =>
          split
          · rfl
          · next hfit =>
              split
              · rfl
              · next hcrc =>
                  -- every test passed, so a record stands here after all
                  rw [not_or, not_not, not_not] at hmagic
                  rw [not_not, ← List.drop_drop] at hcrc
                  refine absurd ⟨?_, hmagic.1, hmagic.2, ?_, hcrc⟩ h
                  · rw [List.length_drop]; omega
                  · rw [List.length_drop]
                    simp only [walPayloadLen]
                    omega
  · rfl

/-- Where a record stands the loop takes it and goes on behind it. -/
theorem read_loop_record {file : Bytes} {offset : Nat} (h : WalRecordAt (file.drop offset)) :
    read_loop file offset =
      let rest := read_loop file (offset + (kWalHeaderSize + walPayloadLen (file.drop offset)))
      { rest with
        records := ((walEvent (file.drop offset)).map (⟨·, offset⟩)).toList ++ rest.records } := by
  obtain ⟨h1, h2, h3, h4, h5⟩ := h
  rw [List.length_drop] at h1 h4
  have hk : kWalHeaderSize = 13 := rfl
  rw [read_loop, ← Nat.add_assoc]
  simp only []
  rw [if_pos (by omega), if_neg (by rw [not_or, not_not, not_not]; exact ⟨h2, h3⟩),
    if_neg (by simp only [walPayloadLen] at h4; omega),
    if_neg (by rw [not_not, ← List.drop_drop]; exact h5)]
  simp only [walEvent, walPayloadLen, List.drop_drop]
  split <;> rfl

theorem read_loop_spec (file : Bytes) (offset : Nat) :
    (read_loop file offset).records = walRecords (walFormat.scan offset (file.drop offset)) ∧
      (read_loop file offset).clean_end = offset + walFormat.clean (file.drop offset) ∧
      ((read_loop file offset).torn = true →
        (read_loop file offset).clean_end < file.length) := by
  induction hl : file.drop offset using Format.scan_induction (f := walFormat)
    generalizing offset with
  | stop l hp =>
      subst hl
      have hr : ¬ WalRecordAt (file.drop offset) := fun hr => by
        rw [walFormat_parse_some hr] at hp; cases hp
      rw [read_loop_stop hr, Format.scan_none hp, Format.clean_none hp]
      split
      · next hin =>
          refine ⟨rfl, rfl, fun _ => ?_⟩
          simp only [kWalHeaderSize] at hin ⊢
          omega
      · exact ⟨rfl, rfl, fun ht => by cases ht⟩
  | step l x n hp ih =>
      subst hl
      have hr : WalRecordAt (file.drop offset) := by
        by_contra hr
        rw [walFormat_parse_none hr] at hp
        cases hp
      rw [walFormat_parse_some hr] at hp
      cases hp
      obtain ⟨ih1, ih2, ih3⟩ := ih _ (by rw [List.drop_drop])
      rw [Format.scan_some (walFormat_parse_some hr), Format.clean_some (walFormat_parse_some hr),
        read_loop_record hr]
      refine ⟨?_, ?_, ih3⟩
      · simp only [ih1, List.drop_drop, walRecords, List.filterMap_cons]
        cases walEvent (file.drop offset) <;> rfl
      · simp only [ih2, List.drop_drop]; omega

theorem read_segment_records (file : Bytes) :
    (read_segment file).records = walRecords (walFormat.scan 0 file) := by
  have h := (read_loop_spec file 0).1
  rw [read_segment]
  split <;> exact h

theorem read_segment_clean_end (file : Bytes) :
    (read_segment file).clean_end = walFormat.clean file := by
  have h := (read_loop_spec file 0).2.1
  rw [Nat.zero_add] at h
  rw [read_segment]
  split <;> exact h

/-- A segment is torn exactly when its clean end falls short of it. -/
theorem read_segment_torn (file : Bytes) :
    (read_segment file).torn = true ↔ walFormat.clean file < file.length := by
  obtain ⟨-, hend, htorn⟩ := read_loop_spec file 0
  rw [Nat.zero_add, List.drop_zero] at hend
  rw [read_segment]
  split
  · next hlt => rw [hend] at hlt; exact ⟨fun _ => hlt, fun _ => rfl⟩
  · next hge =>
      rw [hend] at hge
      refine ⟨fun ht => ?_, fun hlt => absurd hlt hge⟩
      rw [← hend]; exact htorn ht

/-! ## What the writer puts down -/

@[simp] theorem wal_record_length (e : Event) : (wal_record e).length = 78 := by
  simp [wal_record, write_u32, Event.kEncodedSize]

/-- The header of a record, as `append` lays it out. -/
theorem wal_record_header (e : Event) :
    (wal_record e).take kWalHeaderSize =
      write_u32 kWalMagic ++ ([kWalVersion] ++ (write_u32 65 ++
        write_u32 (wal_crc (kWalVersion :: write_u32 65) e.encode))) := by
  simp only [wal_record, Event.encode_length]
  rfl

theorem wal_record_payload (e : Event) : (wal_record e).drop kWalHeaderSize = e.encode := by
  simp only [wal_record]
  rfl

theorem wal_record_payloadLen (e : Event) : walPayloadLen (wal_record e) = 65 := by
  rw [walPayloadLen, wal_record_header]
  exact congrArg UInt32.toNat (read_u32_write_u32 65 _)

theorem walRecordAt_wal_record (e : Event) : WalRecordAt (wal_record e) := by
  have hpay : ((wal_record e).drop kWalHeaderSize).take 65 = e.encode := by
    rw [wal_record_payload]
    exact List.take_of_length_le (by rw [Event.encode_length]; exact Nat.le_refl _)
  refine ⟨?_, ?_, ?_, ?_, ?_⟩
  · rw [wal_record_length]; decide
  · rw [wal_record_header]; exact read_u32_write_u32 _ _
  · rw [wal_record_header]; rfl
  · rw [wal_record_payloadLen, wal_record_length]; decide
  · rw [wal_record_payloadLen, hpay, wal_record_header]
    have hcrc := read_u32_write_u32 (wal_crc (kWalVersion :: write_u32 65) e.encode) []
    rw [List.append_nil] at hcrc
    exact hcrc.symm

theorem walFormat_wal_record (e : Event) :
    walFormat.parse (wal_record e) = some (some e, (wal_record e).length) := by
  rw [walFormat_parse_some (walRecordAt_wal_record e), walEvent, wal_record_payloadLen,
    wal_record_length, wal_record_payload, if_pos (show 65 = Event.kEncodedSize from rfl),
    List.take_of_length_le (by rw [Event.encode_length]; exact Nat.le_refl _),
    Event.decode_encode]
  rfl

/-- A proper prefix of a record is where reading stops. -/
theorem walFormat_torn (e : Event) {k : Nat} (hk : k < 78) :
    walFormat.parse ((wal_record e).take k) = none :=
  Format.parse_prefix (walFormat_wal_record e) (List.take_prefix _ _)
    (by rw [List.length_take, wal_record_length]; omega)

end Kronos
