import Kronos.Proofs.TableRead
import Kronos.Spec.Untrusted

/-!
# No file makes the reader leave its buffers, but one kind

Every length a decoder goes by is checked against the buffer before it is used,
in arithmetic wide enough for it. So the checked reader does what the plain one
does, step for step, and its only failures are exceptions.

The filter is the exception: the number of its bytes is computed in 32 bits, and
for a number of bits within 7 of 2^32 it is zero. Such a filter decodes, and the
first key that is looked up reads in front of an empty buffer.
-/

namespace Kronos

open Spec Checked

/-! ## Buffers -/

theorem r32_take {n : Nat} (hn : 4 ≤ n) (p : Bytes) : r32 (p.take n) = r32 p :=
  congrArg UInt32.ofBitVec (LittleEndian.value_congr fun i hi => by
    rw [List.getD_eq_getElem?_getD, List.getElem?_take_of_lt (by omega),
      ← List.getD_eq_getElem?_getD])

theorem r64_take {n : Nat} (hn : 8 ≤ n) (p : Bytes) : r64 (p.take n) = r64 p :=
  congrArg UInt64.ofBitVec (LittleEndian.value_congr fun i hi => by
    rw [List.getD_eq_getElem?_getD, List.getElem?_take_of_lt (by omega),
      ← List.getD_eq_getElem?_getD])

namespace Checked

theorem span_ok {buf : Bytes} {i n : Nat} (h : i + n ≤ buf.length) :
    span buf i n = .ok ((buf.drop i).take n) := if_pos h

theorem u32_at_ok {buf : Bytes} {i : Nat} (h : i + 4 ≤ buf.length) :
    u32_at buf i = .ok (r32 (buf.drop i)) := by
  rw [u32_at, span_ok h, Except.map, r32_take (Nat.le_refl _)]

theorem u64_at_ok {buf : Bytes} {i : Nat} (h : i + 8 ≤ buf.length) :
    u64_at buf i = .ok (r64 (buf.drop i)) := by
  rw [u64_at, span_ok h, Except.map, r64_take (Nat.le_refl _)]

theorem key_at_ok {buf : Bytes} {i : Nat} (h : i + Key.kEncodedSize ≤ buf.length) :
    key_at buf i = .ok (Key.decode ((buf.drop i).take Key.kEncodedSize)) := by
  rw [key_at, span_ok h, Except.map]

/-- The records that a buffer has room for are read. -/
theorem records_at_ok {α : Type} {data : Bytes} {size : Nat} {record : Nat → Result α}
    {decode : Bytes → α}
    (h : ∀ p, p + size ≤ data.length → record p = .ok (decode ((data.drop p).take size)))
    (n p : Nat) (hroom : p + n * size ≤ data.length) :
    records_at size record n p = .ok (read_records size decode n (data.drop p)) := by
  induction n generalizing p with
  | zero => rfl
  | succ n ih =>
      rw [Nat.succ_mul] at hroom
      rw [records_at, h p (by omega), ih (p + size) (by omega), read_records, List.drop_drop]
      rfl

/-! ## Decoders -/

theorem lift_ok {α : Type} (a : α) : lift (.ok a) = .ok a := rfl

theorem entry_at_ok {data : Bytes} {p : Nat} (h : p + IndexEntry.kEncodedSize ≤ data.length) :
    entry_at data p = .ok (IndexEntry.decode ((data.drop p).take IndexEntry.kEncodedSize)) := by
  have hkey : Key.kEncodedSize = 20 := rfl
  have hentry : IndexEntry.kEncodedSize = 32 := rfl
  rw [hentry] at h
  rw [entry_at, key_at_ok (by omega), u64_at_ok (by omega), u32_at_ok (by omega), hkey, hentry]
  simp only [IndexEntry.decode, bind, Except.bind, hkey, List.drop_take, List.take_take,
    List.drop_drop]
  rw [r64_take (by decide), r32_take (by decide)]
  rfl

theorem decode_index_eq (data : Bytes) : decode_index data = lift (IndexBlock.decode data) := by
  rw [decode_index, IndexBlock.decode]
  split
  · rfl
  · next hlen =>
      rw [u32_at_ok (by omega), List.drop_zero]
      simp only [bind, Except.bind]
      split
      · rfl
      · next hroom =>
          rw [records_at_ok (fun p hp => entry_at_ok hp) _ _ (by omega)]
          rfl

theorem decode_meta_eq (d : Bytes) : Checked.decode_meta d = lift (Kronos.decode_meta d) := by
  have hkey : Key.kEncodedSize = 20 := rfl
  rw [Checked.decode_meta, Kronos.decode_meta]
  split
  · rfl
  · rw [u64_at_ok (by omega), u64_at_ok (by omega), key_at_ok (by omega), key_at_ok (by omega),
      u32_at_ok (by omega), u64_at_ok (by omega)]
    simp only [bind, Except.bind, hkey, List.drop_zero, List.drop_drop]
    rfl

theorem decode_block_eq (data : Bytes) : decode_block data = lift (Block.decode data) := by
  have hkey : Key.kEncodedSize = 20 := rfl
  rw [decode_block, Block.decode]
  split
  · rfl
  · next hlen =>
      rw [u32_at_ok (by omega), List.drop_zero]
      simp only [bind, Except.bind]
      split
      · rfl
      · next hsize =>
          have hexpected : 4 + (r32 data).toNat * Event.kEncodedSize + 40 + 4 =
              BlockBuilder.encodedSize (r32 data).toNat := rfl
          rw [u32_at_ok (by omega), span_ok (by omega), List.drop_zero]
          simp only
          split
          · rfl
          · rw [records_at_ok (fun p hp => by rw [event_at, span_ok hp]; rfl) _ _ (by omega),
              key_at_ok (by omega), key_at_ok (by omega)]
            simp only [List.drop_drop]
            rfl

/-- What the filter decodes to, and that it has the bytes it computes. -/
theorem decode_filter_eq (data : Bytes) :
    decode_filter data = lift (BloomFilter.decode data) ∧
      ∀ f, BloomFilter.decode data = .ok f → f.k = r32 data ∧ f.m = r32 (data.drop 4) ∧
        f.bits.length = BloomFilter.byte_count f.m := by
  rw [decode_filter, BloomFilter.decode]
  split
  · exact ⟨rfl, fun f hf => by cases hf⟩
  · next hlen =>
      rw [u32_at_ok (by omega), u32_at_ok (by omega), List.drop_zero]
      simp only [bind, Except.bind]
      split
      · exact ⟨rfl, fun f hf => by cases hf⟩
      · next hroom =>
          rw [span_ok (by omega)]
          refine ⟨rfl, fun f hf => ?_⟩
          cases hf
          refine ⟨rfl, rfl, ?_⟩
          show ((data.drop 8).take (BloomFilter.byte_count (r32 (data.drop 4)))).length =
            BloomFilter.byte_count (r32 (data.drop 4))
          rw [List.length_take, List.length_drop]
          omega

/-! ## Opening -/

theorem load_filter_eq (file : Bytes) (filter_off filter_size : UInt64) :
    Checked.load_filter file filter_off filter_size =
      lift (SSTableReader.load_filter file filter_off filter_size) := by
  rw [Checked.load_filter, SSTableReader.load_filter]
  split
  · rfl
  · cases SSTableReader.read_part file filter_size filter_off .filter_read_failed with
    | error err => rfl
    | ok buf => exact (decode_filter_eq buf).1

theorem pread_length {file : Bytes} {size : Nat} {offset : UInt64} {buf : Bytes}
    (h : pread file size offset = some buf) : buf.length = size := by
  rw [pread] at h
  split at h
  · next hok =>
      rw [← Option.some.inj h]
      exact hok.2
  · cases h

/-- Opening a file never leaves a buffer. -/
theorem open_eq (path : SSTablePath) (file : Bytes) :
    Checked.open_ path file = lift (SSTableReader.open_ path file) := by
  rw [Checked.open_, SSTableReader.open_]
  dsimp only
  split
  · rfl
  · cases hfooter : pread file kSSTableFooterSize
        (UInt64.ofNat file.length - .ofNat kSSTableFooterSize) with
    | none => rfl
    | some footer =>
        have hsize : footer.length = 56 := pread_length hfooter
        dsimp only
        rw [u32_at_ok (by omega), u64_at_ok (by omega), u64_at_ok (by omega), u64_at_ok (by omega),
          u64_at_ok (by omega), u64_at_ok (by omega), u64_at_ok (by omega)]
        simp only [bind, Except.bind, List.drop_zero]
        split
        · rfl
        · split
          · rfl
          · rw [load_filter_eq]
            cases SSTableReader.load_filter file (r64 footer) (r64 (footer.drop 8)) with
            | error err => rfl
            | ok filter =>
                rw [lift_ok]
                dsimp only
                cases SSTableReader.read_part file (r64 (footer.drop 24)) (r64 (footer.drop 16))
                    .index_read_failed with
                | error err => rfl
                | ok idx_buf =>
                    rw [lift_ok]
                    dsimp only
                    rw [decode_index_eq]
                    cases IndexBlock.decode idx_buf with
                    | error err => rfl
                    | ok index =>
                        rw [lift_ok]
                        dsimp only
                        cases SSTableReader.read_part file (r64 (footer.drop 40))
                            (r64 (footer.drop 32)) .meta_read_failed with
                        | error err => rfl
                        | ok meta_buf =>
                            rw [lift_ok]
                            dsimp only
                            rw [decode_meta_eq]
                            cases Kronos.decode_meta meta_buf with
                            | error err => rfl
                            | ok info => rfl

/-! ## Reading -/

/-- The loop halves an interval that stays inside of the entries. -/
theorem find_start_eq {start : Key} {entries : List IndexEntry} {lo hi : Nat}
    (h : hi ≤ entries.length) :
    find_start start entries lo hi =
      .ok (Bisect.bisect (fun mid => entries[mid]?.any (·.first_key ≤ start)) lo hi) := by
  induction hn : hi - lo using Nat.strong_induction_on generalizing lo hi with
  | _ n ih =>
      rw [find_start, Bisect.bisect]
      split
      · next hlt =>
          have hmid : (lo + hi) / 2 < entries.length := by omega
          simp only [List.getElem?_eq_getElem hmid, Option.any_some, decide_eq_true_eq]
          split
          · exact ih (hi - (lo + hi) / 2) (by omega) h rfl
          · exact ih ((lo + hi) / 2 - lo) (by omega) (by omega) rfl
      · rfl

theorem blocks_in_range_eq (start end_ : Key) (ib : IndexBlock) :
    Checked.blocks_in_range start end_ ib = .ok (ib.blocks_in_range start end_) := by
  rw [Checked.blocks_in_range, IndexBlock.blocks_in_range]
  split
  · rfl
  · rw [find_start_eq (Nat.le_refl _)]
    rfl

theorem read_block_at_eq (offset : UInt64) (size : UInt32) (cache : Option BlockCache)
    (r : SSTableReader) :
    Checked.read_block_at offset size cache r =
      (lift (r.read_block_at offset size cache).1, (r.read_block_at offset size cache).2) := by
  unfold Checked.read_block_at SSTableReader.read_block_at
  cases cache with
  | none =>
      dsimp only
      cases pread r.file size.toNat offset with
      | none => rfl
      | some buf => exact congrArg (·, none) (decode_block_eq buf)
  | some cache =>
      dsimp only
      obtain ⟨hit, cache⟩ := cache.get ⟨r.path, offset.toNat⟩
      cases hit with
      | some node => exact congrArg (·, some cache) (decode_block_eq _)
      | none =>
          cases pread r.file size.toNat offset with
          | none => rfl
          | some buf => exact congrArg (·, some _) (decode_block_eq buf)

/-- Every answer of the filter comes from its bits. -/
def Answers (f : BloomFilter) : Prop :=
  ∀ key, filter_may_contain key f = .ok (f.may_contain key)

/-- The plain reader's outcome, as one of the checked reader. -/
def plain {σ : Type} (x : Scanned σ) : Stopped σ := ⟨x.state, x.cache, x.threw.map .threw⟩

theorem may_contain_eq {r : SSTableReader} (hf : Answers r.filter) (start end_ : Key) :
    Checked.may_contain start end_ r = .ok (r.may_contain start end_) := by
  rw [Checked.may_contain, SSTableReader.may_contain]
  split
  · rfl
  · split
    · exact hf _
    · rfl

section
variable {σ : Type} {cb : Callback σ} {r : SSTableReader} {start end_ : Key}

theorem scan_blocks_eq (idxs : List Nat) (s : σ) (cache : Option BlockCache) :
    Checked.scan_blocks start end_ cb r idxs s cache =
      plain (r.scan_blocks start end_ cb idxs s cache) := by
  induction idxs generalizing s cache with
  | nil => rfl
  | cons bi rest ih =>
      rw [Checked.scan_blocks, SSTableReader.scan_blocks]
      cases r.index.entries[bi]? with
      | none => rfl
      | some entry =>
          dsimp only
          rw [read_block_at_eq]
          obtain ⟨read, cache'⟩ := r.read_block_at entry.block_offset entry.block_size cache
          cases read with
          | error err => rfl
          | ok blk =>
              rw [lift_ok]
              dsimp only
              obtain ⟨s', more⟩ := block_scan start end_ cb s blk.events
              cases more with
              | false => rfl
              | true => exact ih s' cache'

theorem scan_eq (hf : Answers r.filter) (s : σ) (cache : Option BlockCache) :
    Checked.scan start end_ cb s cache r = plain (r.scan start end_ cb s cache) := by
  rw [Checked.scan, SSTableReader.scan, may_contain_eq hf]
  cases r.may_contain start end_ with
  | false => rfl
  | true =>
      dsimp only
      rw [blocks_in_range_eq, if_pos rfl]
      exact scan_blocks_eq _ s cache

theorem get_eq (hf : Answers r.filter) (key : Key) (cache : Option BlockCache) :
    Checked.get key cache r = plain (r.get key cache) := by
  rw [Checked.get, SSTableReader.get, hf]
  cases hempty : r.filter.empty with
  | true =>
      rw [if_pos rfl, if_neg (by simp)]
      exact scan_eq hf none cache
  | false =>
      rw [if_neg (by simp)]
      cases r.filter.may_contain key.encode with
      | false => rfl
      | true =>
          rw [if_neg (by simp)]
          exact scan_eq hf none cache

end

theorem plain_inside {σ : Type} (x : Scanned σ) : (plain x).fault ≠ some .outside := by
  rw [plain]
  cases x.threw with
  | none => simp
  | some err => simp

theorem lift_inside {α : Type} (x : Except TableError α) : lift x ≠ .error .outside := by
  cases x with
  | ok a => simp [lift]
  | error err => simp [lift]

/-! ## The bits of a filter -/

/-- Every position that the filter computes is one of its bits. -/
theorem get_bit_eq {f : BloomFilter} (h : f.Addressed) (key : Bytes) (i : Nat) :
    Checked.get_bit (BloomFilter.position f.m key i) f =
      .ok (f.get_bit (BloomFilter.position f.m key i)) := by
  have hlt := h.byte_of (BloomFilter.position_lt h key i)
  rw [Checked.get_bit, BloomFilter.get_bit, List.getD_eq_getElem?_getD,
    List.getElem?_eq_getElem hlt]
  rfl

theorem probe_eq {f : BloomFilter} (h : f.Addressed) (key : Bytes) (is : List Nat) :
    probe key f is = .ok (is.all fun i => f.get_bit (BloomFilter.position f.m key i)) := by
  induction is with
  | nil => rfl
  | cons i is ih =>
      rw [probe, get_bit_eq h, List.all_cons, ih]
      simp only [bind, Except.bind]
      cases f.get_bit (BloomFilter.position f.m key i) with
      | false => rfl
      | true => rfl

theorem Answers.of {f : BloomFilter} (hf : f.m = 0 ∨ f.k = 0 ∨ f.Addressed) : Answers f := by
  intro key
  rw [filter_may_contain, BloomFilter.may_contain]
  split
  · rfl
  · next hm =>
      obtain h | h | h := hf
      · exact absurd h hm
      · rw [h]
        rfl
      · exact probe_eq h key _

theorem byte_count_wraps {m : UInt32} (h : 2 ^ 32 ≤ m.toNat + 7) :
    BloomFilter.byte_count m = 0 := by
  have hm := m.toNat_lt
  have h7 : (7 : UInt32).toNat = 7 := rfl
  have h8 : (8 : UInt32).toNat = 8 := rfl
  rw [BloomFilter.byte_count, UInt32.toNat_div, UInt32.toNat_add, h7, h8]
  omega

/-- A filter with no byte is left by the first key that is looked up. -/
theorem probe_outside {f : BloomFilter} (hk : f.k ≠ 0) (hbits : f.bits = []) (key : Bytes) :
    probe key f (List.range f.k.toNat) = .error .outside := by
  obtain ⟨n, hn⟩ : ∃ n, f.k.toNat = n + 1 := by
    have : f.k.toNat ≠ 0 := fun h => hk (UInt32.toNat_inj.mp h)
    exact ⟨f.k.toNat - 1, by omega⟩
  rw [hn, List.range_succ_eq_map, probe, Checked.get_bit, hbits]
  rfl

/-! ## What is opened -/

theorem read_part_ok {file : Bytes} {size offset : UInt64} {err : TableError} {buf : Bytes} :
    SSTableReader.read_part file size offset err = .ok buf ↔
      pread file size.toNat offset = some buf := by
  rw [SSTableReader.read_part]
  cases pread file size.toNat offset with
  | none => simp
  | some b => simp

theorem bind_ok {α β : Type} {x : Except TableError α} {f : α → Except TableError β} {b : β} :
    x.bind f = .ok b ↔ ∃ a, x = .ok a ∧ f a = .ok b := by
  cases x with
  | error err => simp [Except.bind]
  | ok a => simp [Except.bind]

theorem filter_decodes {data : Bytes} :
    (∃ f, BloomFilter.decode data = .ok f) ↔
      8 ≤ data.length ∧ 8 + BloomFilter.byte_count (r32 (data.drop 4)) ≤ data.length := by
  rw [BloomFilter.decode]
  dsimp only
  split
  · simp
    omega
  · split
    · simp
      omega
    · simp
      omega

theorem index_decodes {data : Bytes} :
    (∃ ib, IndexBlock.decode data = .ok ib) ↔
      4 ≤ data.length ∧ 4 + (r32 data).toNat * IndexEntry.kEncodedSize ≤ data.length := by
  rw [IndexBlock.decode]
  dsimp only
  split
  · simp
    omega
  · split
    · simp
      omega
    · simp
      omega

theorem meta_decodes {data : Bytes} :
    (∃ info, Kronos.decode_meta data = .ok info) ↔ 68 ≤ data.length := by
  rw [Kronos.decode_meta]
  split
  · simp
    omega
  · simp
    omega

/-- The constructor, without its branches. -/
theorem open_ok {path : SSTablePath} {file : Bytes} {r : SSTableReader} :
    SSTableReader.open_ path file = .ok r ↔
      ∃ footer filter index info, kSSTableFooterSize ≤ file.length ∧
        footerOf file = some footer ∧ r32 (footer.drop 48) = kSSTableMagic ∧
        (∀ i ∈ [0, 16, 32],
          r64 (footer.drop i) + r64 (footer.drop (i + 8)) ≤ .ofNat file.length) ∧
        SSTableReader.load_filter file (r64 footer) (r64 (footer.drop 8)) = .ok filter ∧
        (SSTableReader.read_part file (r64 (footer.drop 24)) (r64 (footer.drop 16))
          .index_read_failed).bind IndexBlock.decode = .ok index ∧
        (SSTableReader.read_part file (r64 (footer.drop 40)) (r64 (footer.drop 32))
          .meta_read_failed).bind Kronos.decode_meta = .ok info ∧
        r = { path, file, info, index, filter } := by
  rw [SSTableReader.open_]
  dsimp only
  split
  · next hshort =>
      constructor
      · intro h
        cases h
      · rintro ⟨_, _, _, _, hlong, _⟩
        exact absurd hlong (by omega)
  · next hlong =>
      rw [← footerOf]
      cases hfooter : footerOf file with
      | none => simp
      | some footer =>
          dsimp only
          by_cases hmagic : r32 (footer.drop 48) = kSSTableMagic
          · rw [if_neg (by simp [hmagic])]
            split
            · next hout =>
                constructor
                · intro h
                  cases h
                · rintro ⟨f, _, _, _, _, hf, _, hin, _⟩
                  cases hf
                  exfalso
                  obtain h | h | h := hout
                  · exact absurd (hin 0 (by simp)) (UInt64.not_le.mpr h)
                  · exact absurd (hin 16 (by simp)) (UInt64.not_le.mpr h)
                  · exact absurd (hin 32 (by simp)) (UInt64.not_le.mpr h)
            · next hin =>
                have hoffsets : ∀ i ∈ [0, 16, 32],
                    r64 (footer.drop i) + r64 (footer.drop (i + 8)) ≤ .ofNat file.length := by
                  intro i hi
                  refine UInt64.not_lt.mp fun hlt => hin ?_
                  simp only [List.mem_cons, List.not_mem_nil, or_false] at hi
                  obtain rfl | rfl | rfl := hi
                  · exact .inl hlt
                  · exact .inr (.inl hlt)
                  · exact .inr (.inr hlt)
                simp only [bind, bind_ok, Except.ok.injEq]
                constructor
                · rintro ⟨filter, hfilter, index, hindex, info, hinfo, hr⟩
                  exact ⟨footer, filter, index, info, by omega, rfl, hmagic, hoffsets, hfilter,
                    hindex, hinfo, hr.symm⟩
                · rintro ⟨f, filter, index, info, _, hf, _, _, hfilter, hindex, hinfo, hr⟩
                  cases hf
                  exact ⟨filter, hfilter, index, hindex, info, hinfo, hr.symm⟩
          · rw [if_pos hmagic]
            constructor
            · intro h
              cases h
            · rintro ⟨f, _, _, _, _, hf, hm, _⟩
              cases hf
              exact absurd hm hmagic

theorem opens_iff {path : SSTablePath} {file : Bytes} :
    (∃ r, SSTableReader.open_ path file = .ok r) ↔ ∃ footer, WellFormed file footer := by
  constructor
  · rintro ⟨r, hr⟩
    obtain ⟨footer, filter, index, info, hlong, hlast, hmagic, hoffsets, hfilter, hindex, hinfo,
      -⟩ := open_ok.mp hr
    obtain ⟨ibuf, hibuf, hidx⟩ := bind_ok.mp hindex
    obtain ⟨mbuf, hmbuf, hmeta⟩ := bind_ok.mp hinfo
    refine ⟨footer, hlong, hlast, hmagic, hoffsets, fun hsize => ?_,
      ⟨ibuf, read_part_ok.mp hibuf, index_decodes.mp ⟨index, hidx⟩⟩,
      ⟨mbuf, read_part_ok.mp hmbuf, meta_decodes.mp ⟨info, hmeta⟩⟩⟩
    rw [SSTableReader.load_filter, if_neg hsize] at hfilter
    obtain ⟨fbuf, hfbuf, hdecode⟩ := bind_ok.mp hfilter
    exact ⟨fbuf, read_part_ok.mp hfbuf, filter_decodes.mp ⟨filter, hdecode⟩⟩
  · rintro ⟨footer, h⟩
    obtain ⟨ibuf, hibuf, hidx⟩ := h.index
    obtain ⟨mbuf, hmbuf, hmeta⟩ := h.info
    obtain ⟨index, hindex⟩ := index_decodes.mpr hidx
    obtain ⟨info, hinfo⟩ := meta_decodes.mpr hmeta
    obtain ⟨filter, hfilter⟩ : ∃ filter,
        SSTableReader.load_filter file (r64 footer) (r64 (footer.drop 8)) = .ok filter := by
      rw [SSTableReader.load_filter]
      split
      · exact ⟨{}, rfl⟩
      · next hsize =>
          obtain ⟨fbuf, hfbuf, hfit⟩ := h.filter hsize
          obtain ⟨filter, hfilter⟩ := filter_decodes.mpr hfit
          exact ⟨filter, bind_ok.mpr ⟨fbuf, read_part_ok.mpr hfbuf, hfilter⟩⟩
    exact ⟨_, open_ok.mpr ⟨footer, filter, index, info, h.long, h.last, h.magic, h.offsets,
      hfilter, bind_ok.mpr ⟨ibuf, read_part_ok.mpr hibuf, hindex⟩,
      bind_ok.mpr ⟨mbuf, read_part_ok.mpr hmbuf, hinfo⟩, rfl⟩⟩

/-- The filter of an opened file: none, or the one that its bytes are. -/
theorem opened_filter {path : SSTablePath} {file footer : Bytes} {r : SSTableReader}
    (hr : SSTableReader.open_ path file = .ok r) (hlast : footerOf file = some footer) :
    (r64 (footer.drop 8) = 0 → r.filter = {}) ∧
      (r64 (footer.drop 8) ≠ 0 → ∃ buf, part file footer 0 = some buf ∧
        r.filter.k = r32 buf ∧ r.filter.m = r32 (buf.drop 4) ∧
        r.filter.bits.length = BloomFilter.byte_count r.filter.m) := by
  obtain ⟨footer', filter, index, info, -, hlast', -, -, hfilter, -, -, rfl⟩ := open_ok.mp hr
  rw [hlast] at hlast'
  cases hlast'
  rw [SSTableReader.load_filter] at hfilter
  constructor
  · intro hsize
    rw [if_pos hsize] at hfilter
    exact (Except.ok.inj hfilter).symm
  · intro hsize
    rw [if_neg hsize] at hfilter
    obtain ⟨buf, hbuf, hdecode⟩ := bind_ok.mp hfilter
    exact ⟨buf, read_part_ok.mp hbuf, (decode_filter_eq buf).2 filter hdecode⟩

/-- A reader whose filter answers stays inside of its buffers. -/
theorem inside_of_answers {path : SSTablePath} {file : Bytes}
    (h : ∀ r, SSTableReader.open_ path file = .ok r → Answers r.filter) :
    SafeToOpen path file := by
  rw [SafeToOpen, open_eq]
  refine ⟨lift_inside _, fun r hr => ?_⟩
  have hopen : SSTableReader.open_ path file = .ok r := by
    cases hopened : SSTableReader.open_ path file with
    | error err =>
        rw [hopened] at hr
        cases hr
    | ok r' =>
        rw [hopened] at hr
        exact congrArg Except.ok (Except.ok.inj hr)
  have hf := h r hopen
  refine ⟨fun start end_ => ?_, fun key cache => ?_, fun σ cb s start end_ cache => ?_⟩
  · rw [may_contain_eq hf]
    simp
  · rw [get_eq hf]
    exact plain_inside _
  · rw [scan_eq hf]
    exact plain_inside _

/-- A file that is opened with a filter of no bytes: the first `get` reads in front of them. -/
theorem outside_of_wraps {path : SSTablePath} {file footer : Bytes}
    (hformed : WellFormed file footer) (hwraps : WidthWraps file footer) :
    ¬ SafeToOpen path file := by
  intro hsafe
  obtain ⟨hsize, buf, hbuf, hk, hwrap⟩ := hwraps
  obtain ⟨r, hr⟩ := opens_iff.mpr ⟨footer, hformed⟩
  obtain ⟨buf', hbuf', hfk, hfm, hbits⟩ := (opened_filter hr hformed.last).2 hsize
  rw [hbuf] at hbuf'
  cases hbuf'
  have hr' : Checked.open_ path file = .ok r := by
    rw [open_eq, hr]
    exact lift_ok r
  rw [← hfm] at hwrap
  have hempty : r.filter.bits = [] := by
    rw [byte_count_wraps hwrap] at hbits
    exact List.eq_nil_of_length_eq_zero hbits
  have hm : r.filter.m ≠ 0 := by
    intro h0
    rw [h0] at hwrap
    exact absurd hwrap (by decide)
  refine (hsafe.2 r hr').2.1 ⟨0, 0, 0⟩ none ?_
  rw [Checked.get, BloomFilter.empty, if_neg (by simp [hm]), filter_may_contain, if_neg hm,
    probe_outside (by rw [hfk]; exact hk) hempty]

end Checked

open Checked

/-- Opening a file and reading it is safe, but for a file that is opened and whose
filter has a number of bytes that wraps. -/
theorem safe_to_open_iff (path : SSTablePath) (file : Bytes) :
    SafeToOpen path file ↔ ¬ ∃ footer, WellFormed file footer ∧ WidthWraps file footer := by
  constructor
  · rintro hsafe ⟨footer, hformed, hwraps⟩
    exact outside_of_wraps hformed hwraps hsafe
  · intro h
    refine inside_of_answers fun r hr => ?_
    obtain ⟨footer, hformed⟩ := opens_iff.mp ⟨r, hr⟩
    obtain ⟨hnone, hsome⟩ := opened_filter hr hformed.last
    refine Answers.of ?_
    by_cases hsize : r64 (footer.drop 8) = 0
    · rw [hnone hsize]
      exact .inl rfl
    obtain ⟨buf, hbuf, hk, hm, hbits⟩ := hsome hsize
    by_cases hm0 : r.filter.m = 0
    · exact .inl hm0
    by_cases hk0 : r.filter.k = 0
    · exact .inr (.inl hk0)
    have hpos : r.filter.m.toNat ≠ 0 := fun h => hm0 (UInt32.toNat_inj.mp h)
    refine .inr (.inr ⟨by omega, hbits, Nat.lt_of_not_le fun hwrap => h ?_⟩)
    rw [hm] at hwrap
    rw [hk] at hk0
    exact ⟨footer, hformed, hsize, buf, hbuf, hk0, hwrap⟩

/-! ## A file that makes the reader leave its buffers -/

/-- One hash over 2^32 - 1 bits. -/
def wideHeader : Bytes := w32 1 ++ w32 0xFFFFFFFF

/-- No event: the filter of `wideHeader`, an empty index, a meta block of zeros. -/
def wideFile : Bytes :=
  wideHeader ++ w32 0 ++ List.replicate 68 0 ++ SSTableWriter.footer 0 8 8 4 12 68

theorem wide_file_unsafe : ¬ SafeToOpen ⟨0, .flushed 1⟩ wideFile :=
  outside_of_wraps
    { long := by decide +kernel
      last := (by decide +kernel : footerOf wideFile = some (SSTableWriter.footer 0 8 8 4 12 68))
      magic := by decide +kernel
      offsets := by decide +kernel
      filter := fun _ => ⟨wideHeader, by decide +kernel⟩
      index := ⟨w32 0, by decide +kernel⟩
      info := ⟨List.replicate 68 0, by decide +kernel⟩ }
    ⟨by decide +kernel, wideHeader, by decide +kernel⟩

end Kronos
