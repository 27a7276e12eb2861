import Kronos.Proofs.BlockFormat
import Kronos.Proofs.Crc32c
import Kronos.Proofs.WalFaults
import Kronos.Proofs.WalReader

/-!
# A short burst is always caught

Four bytes are as wide as the register, so two strings that differ in one run
of four bytes or less have different checksums. In a record of the log the
changed bytes stand behind a header that still announces them, in a block
between a count and a checksum that are both as they were; so the reader finds
the old checksum and computes another one.

Two things stand outside. A record behind a short write is not where the
reader looks for it, changed or not. And a block of 2^32 events counts as one
of none, so its checksum is looked for among the events.
-/

namespace Kronos

open Framing Spec

/-! ## The checksum -/

theorem crc32c_burst {lo hi : Nat} {p q : Bytes} (h : Burst lo hi p q) (seed : UInt32) :
    crc32c p seed ≠ crc32c q seed := by
  intro heq
  obtain ⟨u, w1, w2, v, rfl, rfl, hlen, hshort, hne, -, -⟩ := h
  have hbits : (Crc.bits w1).length = (Crc.bits w2).length := by
    rw [Crc.bits_length, Crc.bits_length, hlen]
  have hroom : (Crc.bits w1).length ≤ 32 := by
    rw [Crc.bits_length]
    omega
  have hrun := congrArg UInt32.toBitVec heq
  rw [crc32c_bitwise, crc32c_bitwise, bitwiseCrc, bitwiseCrc, BitVec.xor_left_inj,
    Crc.bits_append, Crc.bits_append, Crc.bits_append, Crc.bits_append] at hrun
  have hsame := Crc.run_burst (by decide) hbits hroom _ _ _ hrun
  exact hne (Crc.bits_injective hlen hsame)

/-- A burst in the middle part of a string. -/
theorem Spec.Burst.inside {a m b q : Bytes}
    (h : Burst a.length (a.length + m.length) (a ++ m ++ b) q) :
    ∃ m', q = a ++ m' ++ b ∧ m'.length = m.length ∧ Burst 0 m.length m m' := by
  obtain ⟨u, w1, w2, v, hp, rfl, hlen, hshort, hne, hlo, hhi⟩ := h
  have hfront : a <+: a ++ m ++ b := by
    rw [List.append_assoc]
    exact List.prefix_append ..
  have hbefore : u <+: a ++ m ++ b := by
    rw [hp, List.append_assoc]
    exact List.prefix_append ..
  obtain ⟨u', rfl⟩ := List.prefix_of_prefix_length_le hfront hbefore hlo
  rw [List.append_assoc, List.append_assoc, List.append_assoc] at hp
  have hmid := List.append_cancel_left hp
  rw [← List.append_assoc] at hmid
  rw [List.length_append] at hhi
  have hchanged : u' ++ w1 <+: m ++ b := by
    rw [hmid]
    exact List.prefix_append ..
  obtain ⟨v', rfl⟩ := List.prefix_of_prefix_length_le hchanged (List.prefix_append m b)
    (by rw [List.length_append]; omega)
  rw [List.append_assoc] at hmid
  have hrest := List.append_cancel_left hmid
  refine ⟨u' ++ w2 ++ v', ?_, ?_, u', w1, w2, v', rfl, rfl, hlen, hshort, hne, Nat.zero_le _, ?_⟩
  · rw [← hrest]
    simp only [List.append_assoc]
  · simp only [List.length_append, hlen]
  · simp only [List.length_append]
    omega

/-! ## The log -/

/-- A record whose payload was changed in a burst is no record. -/
theorem burst_record {e : Event} {payload : Bytes} (h : Burst 0 65 e.encode payload)
    (hlen : payload.length = 65) (later : Bytes) :
    ¬ WalRecordAt ((wal_record e).take kWalHeaderSize ++ payload ++ later) := by
  intro hrec
  have hhdr : ((wal_record e).take kWalHeaderSize).length = kWalHeaderSize := by
    rw [List.length_take, wal_record_length]
    rfl
  obtain ⟨-, -, -, -, hcrc⟩ := hrec
  have htake : ((wal_record e).take kWalHeaderSize ++ payload ++ later).take kWalHeaderSize =
      (wal_record e).take kWalHeaderSize := by
    rw [List.append_assoc]
    exact List.take_left' hhdr
  have hpl : walPayloadLen ((wal_record e).take kWalHeaderSize ++ payload ++ later) = 65 := by
    rw [walPayloadLen, htake, ← walPayloadLen, wal_record_payloadLen]
  have hpay : (((wal_record e).take kWalHeaderSize ++ payload ++ later).drop kWalHeaderSize).take
      65 = payload := by
    rw [List.append_assoc, List.drop_left' hhdr]
    exact List.take_left' hlen
  have hencode : e.encode.take 65 = e.encode :=
    List.take_of_length_le (by rw [Event.encode_length]; exact Nat.le_refl _)
  have hold := (walRecordAt_wal_record e).2.2.2.2
  rw [wal_record_payloadLen, wal_record_payload, hencode] at hold
  rw [htake, hpl, hpay, ← hold] at hcrc
  exact crc32c_burst h _ hcrc.symm

/-- Opening a segment starts a missing file and changes no other byte. -/
theorem contents_insert_self (dir : WalDir) (id id' : Nat) :
    WalDir.contents (dir.insert id' (dir.contents id')) id = dir.contents id := by
  by_cases hid : id = id'
  · rw [hid, WalDir.contents, AList.lookup_insert, Option.getD_some]
  · rw [WalDir.contents, AList.lookup_insert_ne hid, WalDir.contents]

/-- What `append` puts down, whether the rotation behind it succeeds or throws. -/
theorem tryAppend_contents {live : Live} {id : Nat} (hfd : live.state.writer.fd = some id)
    (e : Event) {io : AppendIO} (hio : recordSize ≤ io.stored) :
    (tryAppend live (e, io)).state.dir.contents id =
      live.state.dir.contents id ++ wal_record e := by
  have hfull : (wal_record e).take io.stored = wal_record e :=
    List.take_of_length_le (by rw [wal_record_length]; exact hio)
  have hstored : ¬ io.stored < (wal_record e).length := by
    rw [wal_record_length]
    exact Nat.not_lt.mpr hio
  have hwritten : ∀ data : Bytes, WalDir.contents (live.state.dir.insert id
      (live.state.dir.contents id ++ data)) id = live.state.dir.contents id ++ data := by
    intro data
    rw [WalDir.contents, AList.lookup_insert, Option.getD_some]
  simp only [tryAppend, WALWriter.append, hfd, hfull, WALWriter.write, if_neg hstored]
  split
  · next r s happ =>
      split at happ
      · simp only [WALWriter.rotate, WALWriter.open_segment] at happ
        cases hopen : io.open_ok with
        | true =>
            simp only [hopen, if_true] at happ
            cases happ
            exact (contents_insert_self _ id _).trans (hwritten _)
        | false =>
            simp [hopen] at happ
      · cases happ
        exact hwritten _
  · next s happ =>
      split at happ
      · simp only [WALWriter.rotate, WALWriter.open_segment] at happ
        cases hopen : io.open_ok with
        | true => simp [hopen] at happ
        | false =>
            simp only [hopen] at happ
            cases happ
            exact hwritten _
      · cases happ

/-- A record behind whole ones is read where it stands. -/
theorem read_segment_record {before : Bytes} (hclean : walFormat.clean before = before.length)
    (e : Event) (later : Bytes) :
    ∃ rest, (read_segment (before ++ wal_record e ++ later)).records =
      (read_segment before).records ++ ⟨e, before.length⟩ :: rest := by
  refine ⟨walRecords (walFormat.scan (before.length + (wal_record e).length) later), ?_⟩
  rw [read_segment_records, read_segment_records, List.append_assoc,
    Format.scan_append _ 0 hclean, Format.scan_record (walFormat_wal_record e), Nat.zero_add,
    walRecords, List.filterMap_append]
  rfl

theorem clean_of_not_torn {file : Bytes} (h : (read_segment file).torn = false) :
    walFormat.clean file = file.length := by
  have hle := Format.clean_le_length (f := walFormat) file
  have hnot := mt (read_segment_torn file).mpr (by rw [h]; exact Bool.false_ne_true)
  omega

theorem burst_segment {live : Live} {id : Nat} (hfd : live.state.writer.fd = some id)
    (hwhole : (read_segment (live.state.dir.contents id)).torn = false) (e : Event)
    {io : AppendIO} (hio : recordSize ≤ io.stored) {later file : Bytes}
    (h : Burst ((live.state.dir.contents id).length + kWalHeaderSize)
      ((live.state.dir.contents id).length + recordSize)
      ((tryAppend live (e, io)).state.dir.contents id ++ later) file) :
    (read_segment file).records = (read_segment (live.state.dir.contents id)).records ∧
      (read_segment file).torn = true := by
  rw [tryAppend_contents hfd e hio] at h
  generalize live.state.dir.contents id = before at h hwhole
  have hhdr : ((wal_record e).take kWalHeaderSize).length = kWalHeaderSize := by
    rw [List.length_take, wal_record_length]
    rfl
  have hsplit : before ++ wal_record e ++ later =
      (before ++ (wal_record e).take kWalHeaderSize) ++ e.encode ++ later := by
    rw [← wal_record_payload e, List.append_assoc before (List.take _ _),
      List.take_append_drop]
  have hend : before.length + recordSize =
      (before ++ (wal_record e).take kWalHeaderSize).length + e.encode.length := by
    rw [List.length_append, hhdr, Event.encode_length, recordSize, Nat.add_assoc]
  have hstart : before.length + kWalHeaderSize =
      (before ++ (wal_record e).take kWalHeaderSize).length := by
    rw [List.length_append, hhdr]
  rw [hsplit, hend, hstart] at h
  obtain ⟨payload, rfl, hlen, hburst⟩ := h.inside
  rw [Event.encode_length] at hlen hburst
  have hstop := walFormat_parse_none (burst_record hburst hlen later)
  have hclean := clean_of_not_torn hwhole
  rw [List.append_assoc before, List.append_assoc before]
  apply And.intro
  · rw [read_segment_records, Format.scan_append _ 0 hclean, Format.scan_none hstop,
      List.append_nil, read_segment_records]
  · rw [read_segment_torn, Format.clean_append _ hclean, Format.clean_none hstop]
    have hk : kWalHeaderSize = 13 := rfl
    rw [List.length_append, List.length_append, List.length_append, hhdr]
    omega

/-! ## Blocks -/

theorem burst_block {b : BlockBuilder} (hcount : b.events.length < 2 ^ 32) {data : Bytes}
    (h : Burst 4 (b.finish.length - 4) b.finish data) :
    Block.decode data = .error .block_checksum_mismatch := by
  have hne : b.events ≠ [] := by
    intro hnil
    obtain ⟨u, w1, w2, v, hp, -, -, -, -, hlo, -⟩ := h
    have hlen := congrArg List.length hp
    simp only [BlockBuilder.finish, hnil, List.head?_nil, List.length_nil,
      List.length_append] at hlen
    omega
  have hsize := BlockBuilder.finish_length hne
  obtain ⟨min_k, max_k, hfinish⟩ := BlockBuilder.finish_eq hne
  have hdata := BlockBuilder.data_length b.events min_k max_k
  have hnat : (UInt32.ofNat b.events.length).toNat = b.events.length :=
    UInt32.toNat_ofNat_of_lt' hcount
  obtain ⟨n, hn⟩ : ∃ n, n = BlockBuilder.encodedSize b.events.length := ⟨_, rfl⟩
  have hbig : 48 ≤ n := by
    rw [hn, BlockBuilder.encodedSize, Key.kEncodedSize]
    omega
  -- the count, what may have changed, and the checksum
  obtain ⟨mid, hmid⟩ : ∃ mid, BlockBuilder.data b.events min_k max_k =
      w32 (.ofNat b.events.length) ++ mid := by
    rw [BlockBuilder.data, List.append_assoc, List.append_assoc]
    exact ⟨_, rfl⟩
  rw [hmid, List.length_append, w32_length, ← hn] at hdata
  have hend : b.finish.length - 4 = (w32 (.ofNat b.events.length)).length + mid.length := by
    rw [hsize, ← hn, w32_length]
    omega
  rw [hend, hfinish, hmid] at h
  obtain ⟨mid', rfl, hlen, hburst⟩ := Burst.inside h
  have hcrc : Burst 0 n (w32 (.ofNat b.events.length) ++ mid)
      (w32 (.ofNat b.events.length) ++ mid') := by
    obtain ⟨u, w1, w2, v, rfl, rfl, hw, hshort, hdiff, -, hhi⟩ := hburst
    refine ⟨w32 (.ofNat b.events.length) ++ u, w1, w2, v, ?_, ?_, hw, hshort, hdiff,
      Nat.zero_le _, ?_⟩
    · simp only [List.append_assoc]
    · simp only [List.append_assoc]
    · rw [List.length_append, w32_length]
      omega
  generalize hsum : crc32c (w32 (.ofNat b.events.length) ++ mid) = sum
  have hfront : (w32 (.ofNat b.events.length) ++ mid').length = n - 4 := by
    rw [List.length_append, w32_length]
    omega
  have hread : r32 (w32 (.ofNat b.events.length) ++ mid' ++ w32 sum) =
      .ofNat b.events.length := by
    rw [List.append_assoc, r32_w32]
  have hdrop : (w32 (.ofNat b.events.length) ++ mid' ++ w32 sum).drop (n - 4) = w32 sum :=
    List.drop_left' hfront
  have htake : (w32 (.ofNat b.events.length) ++ mid' ++ w32 sum).take (n - 4) =
      w32 (.ofNat b.events.length) ++ mid' := List.take_left' hfront
  have htotal : (w32 (.ofNat b.events.length) ++ mid' ++ w32 sum).length = n := by
    rw [List.length_append, hfront, w32_length]
    omega
  have hneq : sum ≠ crc32c (w32 (.ofNat b.events.length) ++ mid') := by
    rw [← hsum]
    exact crc32c_burst hcrc 0
  have hmin : 4 + Key.kEncodedSize * 2 + 4 = 48 := rfl
  rw [Block.decode, htotal, hmin, if_neg (by omega)]
  simp only [hread, hnat, ← hn]
  rw [if_neg (by omega), hdrop, htake, r32_w32_last, if_pos hneq]

/-- Bursts in the payload of a record that follows whole records, and in a
block of fewer than 2^32 events. -/
theorem bursts_caught :
    (∀ (u v w1 w2 : Bytes) (seed : UInt32), w1.length = w2.length → w1.length ≤ 4 → w1 ≠ w2 →
      crc32c (u ++ w1 ++ v) seed ≠ crc32c (u ++ w2 ++ v) seed) ∧
    (∀ (live : Live) (id : Nat) (e : Event) (io : AppendIO) (later file : Bytes),
      live.state.writer.fd = some id → recordSize ≤ io.stored →
      let before := live.state.dir.contents id
      let segment := (tryAppend live (e, io)).state.dir.contents id ++ later
      (read_segment before).torn = false →
      Burst (before.length + kWalHeaderSize) (before.length + recordSize) segment file →
      (∃ rest, (read_segment segment).records =
        (read_segment before).records ++ ⟨e, before.length⟩ :: rest) ∧
      (read_segment file).records = (read_segment before).records ∧
        (read_segment file).torn = true) ∧
    ∀ (b : BlockBuilder) (data : Bytes), b.events.length < 2 ^ 32 →
      Burst 4 (b.finish.length - 4) b.finish data →
      Block.decode data = .error .block_checksum_mismatch := by
  apply And.intro
  · intro u v w1 w2 seed hlen hshort hne
    exact crc32c_burst
      ⟨u, w1, w2, v, rfl, rfl, hlen, hshort, hne, Nat.zero_le _, Nat.le_refl _⟩ seed
  · apply And.intro
    · intro live id e io later file hfd hio before segment hwhole h
      apply And.intro
      · rw [show segment = before ++ wal_record e ++ later by
          exact congrArg (· ++ later) (tryAppend_contents hfd e hio)]
        exact read_segment_record (clean_of_not_torn hwhole) e later
      · exact burst_segment hfd hwhole e hio h
    · intro b data hcount h
      exact burst_block hcount h

/-- One byte is a burst. -/
theorem burst_set {lo hi i : Nat} {p : Bytes} {x : UInt8} (h : p[i]? ≠ some x) (hi' : i < p.length)
    (hlo : lo ≤ i) (hhi : i < hi) : Burst lo hi p (p.set i x) := by
  refine ⟨p.take i, [p[i]], [x], p.drop (i + 1), ?_, ?_, rfl, ?_, fun heq => ?_, ?_, ?_⟩
  · rw [List.append_assoc, List.singleton_append, List.cons_getElem_drop_succ,
      List.take_append_drop]
  · rw [List.set_eq_take_append_cons_drop, if_pos hi', List.append_assoc, List.singleton_append]
  · rw [List.length_singleton]
    decide
  · rw [List.getElem?_eq_getElem hi'] at h
    exact h (congrArg some (List.cons.inj heq).1)
  · rw [List.length_take]
    omega
  · rw [List.length_take, List.length_singleton]
    omega

/-- A byte in the payload of a second record, in front of a third, and one in the
second event of a block. -/
theorem bursts_caught_changed :
    crc32c [1, 2, 3] ≠ crc32c [1, 4, 3] ∧
    (let live := runSession 1000 (runHistory 1000 []) [{}]
      let segment := (tryAppend live ({ timestamp_ns := 1 }, {})).state.dir.contents 1 ++
        wal_record {}
      (read_segment (segment.set (recordSize + kWalHeaderSize) 2)).records =
          (read_segment (live.state.dir.contents 1)).records ∧
        (read_segment (segment.set (recordSize + kWalHeaderSize) 2)).torn = true) ∧
    Block.decode ((BlockBuilder.finish ⟨4096, [{}, { timestamp_ns := 1 }]⟩).set 69 2) =
      .error .block_checksum_mismatch := by
  obtain ⟨hcrc, hrecord, hblock⟩ := bursts_caught
  refine ⟨hcrc [1] [3] [2] [4] 0 rfl (by decide) (by decide), ?_, ?_⟩
  · intro live segment
    have hwhole : (read_segment (live.state.dir.contents 1)).torn = false :=
      (read_segment_whole (wal_record_clean_end {})).1
    have hburst : Burst ((live.state.dir.contents 1).length + kWalHeaderSize)
        ((live.state.dir.contents 1).length + recordSize) segment
        (segment.set (recordSize + kWalHeaderSize) 2) := by
      refine burst_set ?_ ?_ ?_ ?_ <;> decide +kernel
    exact (hrecord live 1 { timestamp_ns := 1 } {} (wal_record {}) _ rfl (by decide) hwhole
      hburst).2
  · refine hblock ⟨4096, [{}, { timestamp_ns := 1 }]⟩ _ (by decide) (burst_set ?_ ?_ ?_ ?_) <;>
      decide +kernel

/-! ## What is not caught -/

/-- The checksum of the 44 zero bytes in front of it stands in the price. -/
def guardEvent : Event := { ask_px_ticks := 29320940114411520 }

/-- A block whose count is cut to 0. -/
def wideBlock : BlockBuilder :=
  { target_bytes := 2 ^ 40, events := guardEvent :: List.replicate (2 ^ 32 - 1) {} }

/-- It decodes as a block of no events, whatever stands behind the first one. -/
theorem decode_wide (rest : Bytes) :
    ∃ m, Block.decode (w32 0 ++ guardEvent.encode ++ rest) = .ok ⟨m, []⟩ := by
  have hcut : (w32 0 ++ guardEvent.encode).take 44 = List.replicate 44 0 := by decide +kernel
  have hsum : crc32c (List.replicate 44 0) = 1747664220 := by decide +kernel
  have hguard : (w32 0 ++ guardEvent.encode).drop 44 =
      w32 1747664220 ++ (w32 0 ++ guardEvent.encode).drop 48 := by decide +kernel
  have hlen : (w32 0 ++ guardEvent.encode).length = 69 := by
    rw [List.length_append, w32_length, Event.encode_length]
    rfl
  have htotal : (w32 0 ++ guardEvent.encode ++ rest).length = 69 + rest.length := by
    rw [List.length_append, hlen]
  have hread : r32 (w32 0 ++ guardEvent.encode ++ rest) = 0 := by
    rw [List.append_assoc, r32_w32]
  have htake : (w32 0 ++ guardEvent.encode ++ rest).take 44 = List.replicate 44 0 := by
    rw [List.take_append_of_le_length (by omega), hcut]
  have hdrop : r32 ((w32 0 ++ guardEvent.encode ++ rest).drop 44) = 1747664220 := by
    rw [List.drop_append_of_le_length (by omega), hguard, List.append_assoc, r32_w32]
  have hmin : 4 + Key.kEncodedSize * 2 + 4 = 48 := rfl
  have hexpected : BlockBuilder.encodedSize (0 : UInt32).toNat = 48 := rfl
  rw [Block.decode, htotal, hmin, if_neg (by omega)]
  simp only [hread, hexpected]
  rw [if_neg (by omega), show 48 - 4 = 44 by rfl, hdrop, htake, hsum, if_neg (fun h => h rfl)]
  exact ⟨_, rfl⟩

/-- A changed byte of the second event of such a block, and of the payload of a
record behind a short write: the block still decodes, and the acknowledged
record in front is not returned. -/
theorem bursts_missed :
    (∃ data block, Burst 4 (wideBlock.finish.length - 4) wideBlock.finish data ∧
      Block.decode data = .ok block) ∧
    let live := retriedAppend.foldl tryAppend (runSession 1000 (runHistory 1000 []) [])
    let before := live.state.dir.contents 1
    ∃ file, Burst (before.length + kWalHeaderSize) (before.length + recordSize)
        ((tryAppend live ({}, {})).state.dir.contents 1) file ∧
      (read_segment file).records ≠ live.log.map LogEntry.record := by
  apply And.intro
  · have hne : wideBlock.events ≠ [] := List.cons_ne_nil _ _
    have hsize := BlockBuilder.finish_length hne
    have hlong : wideBlock.events.length = 2 ^ 32 := by
      rw [wideBlock, List.length_cons, List.length_replicate]
      rfl
    have hcount : UInt32.ofNat (2 ^ 32) = 0 := by decide
    have hzero : ({} : Event).encode = 0 :: ({} : Event).encode.tail := by decide
    obtain ⟨min_k, max_k, hfinish⟩ := BlockBuilder.finish_eq hne
    obtain ⟨rest, hrest⟩ : ∃ rest, wideBlock.finish =
        w32 0 ++ guardEvent.encode ++ [0] ++ rest ∧ 4 ≤ rest.length := by
      rw [hfinish, BlockBuilder.data, hlong, hcount, wideBlock, List.flatMap_cons,
        show 2 ^ 32 - 1 = (2 ^ 32 - 2) + 1 by rfl, List.replicate_succ, List.flatMap_cons, hzero]
      simp only [List.append_assoc, List.cons_append, List.nil_append]
      refine ⟨_, rfl, ?_⟩
      rw [List.length_append, List.length_append, List.length_append, List.length_append,
        w32_length]
      omega
    obtain ⟨m, hm⟩ := decode_wide ([1] ++ rest)
    rw [← List.append_assoc] at hm
    refine ⟨_, _, ⟨w32 0 ++ guardEvent.encode, [0], [1], rest, hrest.1, rfl, rfl, by decide,
      by decide, ?_, ?_⟩, hm⟩
    · rw [List.length_append, w32_length]
      omega
    · have hfour := hrest.2
      rw [hrest.1]
      simp only [List.length_append]
      omega
  · intro live before
    have hbefore : before = 0x4E :: wal_record {} := rfl
    have hsegment : (tryAppend live ({}, {})).state.dir.contents 1 =
        before ++ wal_record {} := rfl
    have hunread : walFormat.parse ((before ++ (wal_record {}).take 13) ++ [1] ++
        (wal_record {}).drop 14) = none := by
      refine walFormat_parse_none fun h => ?_
      have hmagic := h.2.1
      revert hmagic
      decide
    refine ⟨(before ++ (wal_record {}).take 13) ++ [1] ++ (wal_record {}).drop 14,
      ⟨before ++ (wal_record {}).take 13, [0], [1], (wal_record {}).drop 14, ?_, rfl, rfl,
        by decide, by decide, ?_, ?_⟩, ?_⟩
    · rw [hsegment]
      decide +kernel
    · decide +kernel
    · decide +kernel
    · rw [read_segment_records, Format.scan_none hunread]
      decide

end Kronos
