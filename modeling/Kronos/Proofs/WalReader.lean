import Mathlib.Algebra.Order.BigOperators.Group.List
import Kronos.Proofs.WalFormat
import Kronos.Spec.WalReader

/-!
# The segment reader on any bytes

Whatever a file holds, it is whole records laid end to end and then something
that is none, and there the loop stops. Everything the reader answers follows
from that split: where it stops, what it returns, that cutting the file there
changes nothing, and that a file read to its end can be continued.

How much the reader calls torn is another matter. The loop counts the rest of
the file when it leaves at a header that does not fit, and the lines behind the
loop count it once more. Only a rest too short for a header is counted once.
-/

namespace Kronos

open Framing Spec

/-! ## Whole records -/

theorem write_u32_eq (v : UInt32) : write_u32 v = LittleEndian.bytes 4 v.toBitVec := by
  rfl

/-- The four bytes a number was read from. -/
theorem write_u32_read_u32 {l : Bytes} (h : 4 ≤ l.length) :
    write_u32 (read_u32 l) = l.take 4 := by
  have hlen : (l.take 4).length = 4 := by
    rw [List.length_take]
    omega
  have hbytes := LittleEndian.bytes_value (l.take 4)
  rw [hlen] at hbytes
  have hval : (read_le 4 l : BitVec 32) = LittleEndian.value (8 * 4) 4 (l.take 4) :=
    LittleEndian.value_congr fun i hi => by
      rw [List.getD_eq_getElem?_getD, List.getD_eq_getElem?_getD, List.getElem?_take_of_lt hi]
  rw [write_u32_eq, read_u32_eq]
  exact (congrArg (LittleEndian.bytes 4) hval).trans hbytes

theorem framed_length (p : Payload) : (framed p).length = kWalHeaderSize + p.bytes.length := by
  simp [framed, write_u32, kWalHeaderSize]
  omega

theorem framed_header (p : Payload) :
    (framed p).take kWalHeaderSize =
      write_u32 kWalMagic ++ ([kWalVersion] ++ (write_u32 (.ofNat p.bytes.length) ++
        write_u32 (wal_crc (kWalVersion :: write_u32 (.ofNat p.bytes.length)) p.bytes))) := by
  rfl

theorem framed_payload (p : Payload) : (framed p).drop kWalHeaderSize = p.bytes := by
  rfl

theorem framed_payloadLen (p : Payload) : walPayloadLen (framed p) = p.bytes.length := by
  rw [walPayloadLen, framed_header]
  have hread := read_u32_write_u32 (.ofNat p.bytes.length)
    (write_u32 (wal_crc (kWalVersion :: write_u32 (.ofNat p.bytes.length)) p.bytes))
  exact (congrArg UInt32.toNat hread).trans (UInt32.toNat_ofNat_of_lt' p.short)

theorem walRecordAt_framed (p : Payload) : WalRecordAt (framed p) := by
  have hpay : ((framed p).drop kWalHeaderSize).take p.bytes.length = p.bytes := by
    rw [framed_payload]
    exact List.take_length
  refine ⟨?_, ?_, ?_, ?_, ?_⟩
  · rw [framed_length]
    omega
  · rw [framed_header]
    exact read_u32_write_u32 _ _
  · rw [framed_header]
    rfl
  · rw [framed_payloadLen, framed_length]
  · rw [framed_payloadLen, hpay, framed_header]
    have hcrc := read_u32_write_u32
      (wal_crc (kWalVersion :: write_u32 (.ofNat p.bytes.length)) p.bytes) []
    rw [List.append_nil] at hcrc
    exact hcrc.symm

theorem framed_parse (p : Payload) :
    walFormat.parse (framed p) = some (p.event, (framed p).length) := by
  rw [walFormat_parse_some (walRecordAt_framed p), walEvent, framed_payloadLen, framed_payload,
    List.take_length, framed_length]
  rfl

/-- The four parts of a header. -/
theorem header_split (hdr : Bytes) :
    hdr.take 4 ++ (hdr.drop 4).take 1 ++ (hdr.drop 5).take 4 ++ hdr.drop 9 = hdr := by
  rw [← List.take_add, ← List.take_add, List.take_append_drop]

/-- What the loop's tests accept is the record of some payload. -/
theorem framed_of_walRecordAt {l : Bytes} (h : WalRecordAt l) :
    ∃ p : Payload, framed p = l.take (kWalHeaderSize + walPayloadLen l) := by
  obtain ⟨hlong, hmagic, hversion, hroom, hcrc⟩ := h
  have hk : kWalHeaderSize = 13 := rfl
  have hsize : ((l.drop kWalHeaderSize).take (walPayloadLen l)).length = walPayloadLen l := by
    rw [List.length_take, List.length_drop]
    omega
  have hlen : UInt32.ofNat (walPayloadLen l) = read_u32 ((l.take kWalHeaderSize).drop 5) :=
    UInt32.ofNat_toNat
  have hhdr : (l.take kWalHeaderSize).length = 13 := by
    rw [List.length_take]
    omega
  have h4 : write_u32 kWalMagic = (l.take kWalHeaderSize).take 4 := by
    rw [← hmagic]
    exact write_u32_read_u32 (by omega)
  have h5 : [kWalVersion] = ((l.take kWalHeaderSize).drop 4).take 1 := by
    rw [← hversion, List.getD_eq_getElem _ _ (by omega), List.drop_eq_getElem_cons (by omega)]
    rfl
  have h9 : write_u32 (read_u32 ((l.take kWalHeaderSize).drop 5)) =
      ((l.take kWalHeaderSize).drop 5).take 4 :=
    write_u32_read_u32 (by rw [List.length_drop]; omega)
  have h13 : write_u32 (read_u32 ((l.take kWalHeaderSize).drop 9)) =
      (l.take kWalHeaderSize).drop 9 := by
    rw [write_u32_read_u32 (by rw [List.length_drop]; omega)]
    exact List.take_of_length_le (by rw [List.length_drop]; omega)
  refine ⟨⟨(l.drop kWalHeaderSize).take (walPayloadLen l), ?_⟩, ?_⟩
  · rw [hsize]
    exact UInt32.toNat_lt _
  · rw [framed]
    dsimp only
    rw [hsize, ← hversion, hcrc, hversion, hlen, h13, h9, h4, h5, header_split, List.take_add]

/-! ## A file is whole records and a rest -/

/-- Where no record stands nothing parses. -/
theorem parse_none_iff {l : Bytes} :
    walFormat.parse l = none ↔ ∀ p : Payload, ¬ framed p <+: l := by
  constructor
  · rintro h p ⟨r, rfl⟩
    rw [Format.parse_append (framed_parse p)] at h
    cases h
  · intro h
    refine walFormat_parse_none fun hr => ?_
    obtain ⟨p, hp⟩ := framed_of_walRecordAt hr
    exact h p (hp ▸ List.take_prefix _ _)

theorem reading (file : Bytes) :
    ∃ (accepted : List Payload) (tail : Bytes),
      file = accepted.flatMap framed ++ tail ∧ walFormat.parse tail = none := by
  induction file using Format.scan_induction (f := walFormat) with
  | stop l h => exact ⟨[], l, rfl, h⟩
  | step l x n h ih =>
      obtain ⟨accepted, tail, hrest, htail⟩ := ih
      have hr : WalRecordAt l := by
        by_contra hr
        rw [walFormat_parse_none hr] at h
        cases h
      obtain ⟨p, hp⟩ := framed_of_walRecordAt hr
      rw [walFormat_parse_some hr] at h
      cases h
      refine ⟨p :: accepted, tail, ?_, htail⟩
      rw [List.flatMap_cons, List.append_assoc, ← hrest, hp, List.take_append_drop]

theorem walRecords_framed (off : Nat) (ps : List Payload) :
    walRecords (Format.placed framed Payload.event off ps) = recordsOf off ps := by
  induction ps generalizing off with
  | nil => rfl
  | cons p ps ih =>
      rw [Format.placed, recordsOf, ← ih, walRecords, List.filterMap_cons]
      cases p.event with
      | none => rfl
      | some e => rfl

/-- What is read of a file that is split so. -/
theorem read_split {tail : Bytes} (accepted : List Payload)
    (htail : walFormat.parse tail = none) :
    (read_segment (accepted.flatMap framed ++ tail)).records = recordsOf 0 accepted ∧
      (read_segment (accepted.flatMap framed ++ tail)).clean_end =
        (accepted.flatMap framed).length := by
  obtain ⟨hscan, hclean⟩ := Format.scan_records htail (fun p _ => framed_parse p) 0
  rw [read_segment_records, read_segment_clean_end, hscan, hclean, walRecords_framed]
  exact ⟨rfl, rfl⟩

/-! ## Cutting and continuing -/

theorem read_segment_clean_end_le (file : Bytes) :
    (read_segment file).clean_end ≤ file.length := by
  rw [read_segment_clean_end]
  exact Format.clean_le_length file

theorem walRecords_scan_shift (off n : Nat) (l : Bytes) :
    walRecords (walFormat.scan (n + off) l) =
      (walRecords (walFormat.scan off l)).map (shift n) := by
  induction l using Format.scan_induction (f := walFormat) generalizing off with
  | stop l h =>
      rw [Format.scan_none h, Format.scan_none h]
      rfl
  | step l x k h ih =>
      have hrest := ih (off + k)
      rw [← Nat.add_assoc] at hrest
      rw [Format.scan_some h, Format.scan_some h]
      simp only [walRecords, List.filterMap_cons] at hrest ⊢
      cases x with
      | none => exact hrest
      | some e => exact congrArg (_ :: ·) hrest

/-- A file read to its end, continued. -/
theorem read_segment_append {a : Bytes} (h : (read_segment a).clean_end = a.length) (b : Bytes) :
    (read_segment (a ++ b)).records =
      (read_segment a).records ++ (read_segment b).records.map (shift a.length) := by
  rw [read_segment_clean_end] at h
  rw [read_segment_records, read_segment_records, read_segment_records,
    Format.scan_append b 0 h, Nat.zero_add, ← walRecords_scan_shift 0 a.length b, walRecords,
    List.filterMap_append]
  rfl

/-! ## What is called torn -/

/-- The loop calls the rest torn when a header would have fitted in it. -/
theorem read_loop_torn_bytes (file : Bytes) (offset : Nat) :
    (read_loop file offset).torn_bytes =
      if (read_loop file offset).clean_end + kWalHeaderSize ≤ file.length then
        file.length - (read_loop file offset).clean_end
      else 0 := by
  induction hl : file.drop offset using Format.scan_induction (f := walFormat)
    generalizing offset with
  | stop l hp =>
      subst hl
      have hr : ¬ WalRecordAt (file.drop offset) := by
        intro hr
        rw [walFormat_parse_some hr] at hp
        cases hp
      rw [read_loop_stop hr]
      split
      · rfl
      · rfl
  | step l x n hp ih =>
      subst hl
      have hr : WalRecordAt (file.drop offset) := by
        by_contra hr
        rw [walFormat_parse_none hr] at hp
        cases hp
      rw [walFormat_parse_some hr] at hp
      cases hp
      rw [read_loop_record hr]
      exact ih _ (by rw [List.drop_drop])

/-- Behind the loop the rest is counted, also when the loop counted it. -/
theorem read_segment_torn_bytes (file : Bytes) :
    (read_segment file).torn_bytes =
      (file.length - (read_segment file).clean_end) +
        if (read_segment file).clean_end + kWalHeaderSize ≤ file.length then
          file.length - (read_segment file).clean_end
        else 0 := by
  have hloop := read_loop_torn_bytes file 0
  rw [read_segment]
  split
  · dsimp only
    omega
  · next hend =>
      rw [hloop]
      omega

/-- A file that is read to its end is not torn. -/
theorem read_segment_whole {a : Bytes} (h : (read_segment a).clean_end = a.length) :
    (read_segment a).torn = false ∧ (read_segment a).torn_bytes = 0 := by
  have htorn := read_segment_torn a
  have hbytes := read_segment_torn_bytes a
  rw [← read_segment_clean_end, h] at htorn
  have hk : kWalHeaderSize = 13 := rfl
  rw [h, if_neg (by omega)] at hbytes
  refine ⟨?_, by omega⟩
  simpa using htorn

theorem read_segment_take (file : Bytes) :
    read_segment (file.take (read_segment file).clean_end) =
      ⟨(read_segment file).records, false, 0, (read_segment file).clean_end⟩ := by
  obtain ⟨hscan, hclean⟩ := Format.scan_take_clean (f := walFormat) file 0
  have hle := read_segment_clean_end_le file
  have hend : (read_segment (file.take (read_segment file).clean_end)).clean_end =
      (read_segment file).clean_end := by
    rw [read_segment_clean_end, read_segment_clean_end, hclean]
  have hrecords : (read_segment (file.take (read_segment file).clean_end)).records =
      (read_segment file).records := by
    rw [read_segment_records, read_segment_clean_end, hscan, read_segment_records]
  obtain ⟨htorn, hbytes⟩ := read_segment_whole
    (show _ = (file.take (read_segment file).clean_end).length by
      rw [hend, List.length_take, Nat.min_eq_left hle])
  cases hseg : read_segment (file.take (read_segment file).clean_end) with
  | mk records torn torn_bytes clean_end =>
      rw [hseg] at hend hrecords htorn hbytes
      simp only at hend hrecords htorn hbytes
      rw [hend, hrecords, htorn, hbytes]

/-- The record of a payload of another size is passed over. -/
theorem read_segment_other {a : Bytes} (h : (read_segment a).clean_end = a.length)
    {p : Payload} (hp : p.bytes.length ≠ Event.kEncodedSize) (b : Bytes) :
    (read_segment (a ++ (framed p ++ b))).records =
      (read_segment a).records ++
        (read_segment b).records.map (shift (a.length + (framed p).length)) := by
  have hnone : walFormat.parse ([] : Bytes) = none := walFormat_parse_short (by decide)
  have hone := read_split [p] hnone
  have hevent : p.event = none := if_neg hp
  simp only [List.flatMap_cons, List.flatMap_nil, List.append_nil, recordsOf, hevent,
    Option.map_none, Option.toList_none] at hone
  rw [read_segment_append h, read_segment_append hone.2, hone.1, List.nil_append, List.map_map]
  congr 2
  funext r
  simp only [Function.comp_apply, shift, Nat.add_assoc]

/-- The segment reader on a file of any bytes: what it takes for records and
where it stops, that it calls the file torn when it stops short, that the file cut
there reads the same and is whole, and that a file read to its end reads the
same in front of anything. -/
theorem read_segment_reads (file : Bytes) :
    (∃ (accepted : List Payload) (tail : Bytes), file = accepted.flatMap framed ++ tail ∧
        (∀ p : Payload, ¬ framed p <+: tail) ∧
        (read_segment file).records = recordsOf 0 accepted ∧
        (read_segment file).clean_end = (accepted.flatMap framed).length) ∧
      (read_segment file).clean_end ≤ file.length ∧
      ((read_segment file).torn = true ↔ (read_segment file).clean_end < file.length) ∧
      read_segment (file.take (read_segment file).clean_end) =
        ⟨(read_segment file).records, false, 0, (read_segment file).clean_end⟩ ∧
      ((read_segment file).clean_end = file.length → ∀ b,
        (read_segment (file ++ b)).records =
          (read_segment file).records ++ (read_segment b).records.map (shift file.length)) ∧
      ((read_segment file).clean_end = file.length → ∀ (p : Payload) b,
        p.bytes.length ≠ Event.kEncodedSize →
          (read_segment (file ++ (framed p ++ b))).records =
            (read_segment file).records ++
              (read_segment b).records.map (shift (file.length + (framed p).length))) := by
  refine ⟨?_, read_segment_clean_end_le file, ?_, read_segment_take file,
    fun h b => read_segment_append h b, fun h p b hp => read_segment_other h hp b⟩
  · obtain ⟨accepted, tail, rfl, htail⟩ := reading file
    obtain ⟨hrecords, hend⟩ := read_split accepted htail
    exact ⟨accepted, tail, rfl, parse_none_iff.mp htail, hrecords, hend⟩
  · rw [read_segment_clean_end]
    exact read_segment_torn file

theorem wal_record_clean_end (e : Event) :
    (read_segment (wal_record e)).clean_end = (wal_record e).length := by
  have hnone : walFormat.parse ([] : Bytes) = none := walFormat_parse_short (by decide)
  have hone := Format.clean_record (l := []) (walFormat_wal_record e)
  rwa [List.append_nil, Format.clean_none hnone, Nat.add_zero, ← read_segment_clean_end] at hone

/-- Behind a file of one event an event's record, and one of no payload in front of it. -/
theorem read_segment_reads_three :
    let file := wal_record { timestamp_ns := 1 }
    let later := wal_record { timestamp_ns := 2, event_type := .Quote }
    (read_segment (file ++ later)).records =
        (read_segment file).records ++ (read_segment later).records.map (shift file.length) ∧
      (read_segment (file ++ (framed ⟨[], by decide⟩ ++ later))).records =
        (read_segment file).records ++
          (read_segment later).records.map (shift (file.length + 13)) := by
  intro file later
  obtain ⟨-, -, -, -, happend, hother⟩ := read_segment_reads file
  exact ⟨happend (wal_record_clean_end _) later,
    hother (wal_record_clean_end _) ⟨[], by decide⟩ later (by decide)⟩

/-! ## Torn bytes over a directory -/

theorem read_all_torn_bytes (dir : WalDir) :
    (read_all dir).torn_bytes =
      ((segments dir).map fun file => (read_segment file).torn_bytes).sum := by
  have hfold : ∀ (ids : List Nat) (r : ReadAll),
      (ids.foldl (read_next dir) r).torn_bytes = r.torn_bytes +
        ((ids.filterMap dir.lookup).map fun file => (read_segment file).torn_bytes).sum := by
    intro ids
    induction ids with
    | nil =>
        intro r
        rfl
    | cons id ids ih =>
        intro r
        rw [List.foldl_cons, ih, read_next]
        cases hlook : dir.lookup id with
        | none => rw [List.filterMap_cons, hlook]
        | some file =>
            rw [List.filterMap_cons, hlook, List.map_cons, List.sum_cons]
            dsimp only
            omega
  rw [read_all, hfold, segments]
  exact Nat.zero_add _

/-- A segment's torn bytes are counted once when its tail is short. -/
theorem read_segment_torn_bytes_iff (file : Bytes) :
    (read_segment file).torn_bytes = file.length - (read_segment file).clean_end ↔
      ShortTail file := by
  have hk : kWalHeaderSize = 13 := rfl
  have hbytes := read_segment_torn_bytes file
  obtain ⟨accepted, tail, hfile, htail⟩ := reading file
  have hend := (read_split accepted htail).2
  rw [← hfile] at hend
  have hlen := congrArg List.length hfile
  rw [List.length_append] at hlen
  constructor
  · intro h
    refine ⟨accepted, tail, hfile, ?_⟩
    split at hbytes
    · omega
    · omega
  · rintro ⟨accepted', tail', hfile', hshort⟩
    have hend' := (read_split accepted' (walFormat_parse_short hshort)).2
    rw [← hfile'] at hend'
    have hlen' := congrArg List.length hfile'
    rw [List.length_append] at hlen'
    rw [hbytes, if_neg (by omega), Nat.add_zero]

/-- Sums that agree, of terms one never below the other. -/
theorem sum_eq_iff {α : Type} {f g : α → Nat} (h : ∀ a, g a ≤ f a) (l : List α) :
    (l.map f).sum = (l.map g).sum ↔ ∀ a ∈ l, f a = g a := by
  induction l with
  | nil => simp
  | cons a l ih =>
      have ha := h a
      have hl : (l.map g).sum ≤ (l.map f).sum := List.sum_le_sum fun b _ => h b
      rw [List.map_cons, List.map_cons, List.sum_cons, List.sum_cons, List.forall_mem_cons, ← ih]
      omega

/-- Reading a directory, and recovering from it, report as torn the bytes that are
discarded exactly when no segment's tail has room for a header. -/
theorem torn_bytes_iff (dir : WalDir) (target : MemTable) (heights : Nat → Fin kMaxHeight) :
    ((read_all dir).torn_bytes = discarded dir ∧
        (Recovery.recover (some dir) target heights).1.torn_bytes = discarded dir) ↔
      ∀ file ∈ segments dir, ShortTail file := by
  have hle : ∀ file : Bytes,
      file.length - (read_segment file).clean_end ≤ (read_segment file).torn_bytes := by
    intro file
    rw [read_segment_torn_bytes]
    omega
  have hsum : (read_all dir).torn_bytes = discarded dir ↔ ∀ file ∈ segments dir, ShortTail file := by
    rw [read_all_torn_bytes, discarded, sum_eq_iff hle]
    exact forall₂_congr fun file _ => read_segment_torn_bytes_iff file
  exact (and_self_iff (a := (read_all dir).torn_bytes = discarded dir)).trans hsum

/-! ## Thirteen bytes counted twice -/

/-- One segment that holds a header of zeros. -/
def zeroedDir : WalDir := AList.insert 1 (List.replicate 13 0) ∅

theorem torn_bytes_twice :
    (read_all zeroedDir).torn_bytes = 26 ∧ discarded zeroedDir = 13 ∧
      (read_all zeroedDir).torn_bytes ≠ discarded zeroedDir := by
  decide +kernel

end Kronos
