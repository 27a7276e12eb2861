import Kronos.Proofs.TableRead

/-!
# A table gives back what was put in

Over the model of the bytes: the file of any sorted events opens, and a scan of
it feeds the events of the range. That is also what a scan of the table as a
whole does, so the two models of a table file agree.

The one field of the format that a large table overruns is the count of the
index: 2^32 blocks of one event each are counted as none.
-/

namespace Kronos

open Spec SSTableReader SSTableWriter

variable {target : Nat} {events : List Event}

theorem length_le_bytes {blocks : List (List Event)} (h : ∀ b ∈ blocks, b ≠ []) :
    blocks.flatten.length ≤ (blocks.flatMap blockBytes).length := by
  induction blocks with
  | nil => exact Nat.le_refl _
  | cons b bs ih =>
      have hb := blockBytes_length (h b List.mem_cons_self)
      have hrest := ih fun c hc => h c (List.mem_cons_of_mem _ hc)
      have hle : b.length ≤ (blockBytes b).length := by
        rw [hb, BlockBuilder.encodedSize, Event.kEncodedSize]
        omega
      rw [List.flatten_cons, List.flatMap_cons, List.length_append, List.length_append]
      omega

/-- The length of a file, part by part. -/
theorem write_length (level sequence target : Nat) {filter : BloomFilter}
    (h : filter.Addressed) (events : List Event) : ∃ filled : BloomFilter, filled.Addressed ∧
      (write level sequence target filter events).1.length =
        ((blocksOf target events).flatMap blockBytes).length + (8 + BloomFilter.byte_count filled.m +
          (4 + (blocksOf target events).length * IndexEntry.kEncodedSize +
            (68 + kSSTableFooterSize))) := by
  obtain ⟨filled, haddressed, -, hwrite⟩ := write_layout level sequence target h events
  refine ⟨filled, haddressed, ?_⟩
  rw [hwrite]
  simp only [layout, List.length_append, haddressed.encode_length, IndexBlock.encode_length,
    encode_meta_length, footer_length, entriesAt_length]

theorem events_lt (level sequence : Nat) {filter : BloomFilter} (h : filter.Addressed)
    (hfile : (write level sequence target filter events).1.length < 2 ^ 63) :
    events.length < 2 ^ 63 := by
  obtain ⟨filled, -, hlen⟩ := write_length level sequence target h events
  have hcut := blocksOf_cut target events
  have hle := length_le_bytes hcut.nonempty
  rw [hcut.flatten] at hle
  omega

/-- With no room for a second event every event is a block. -/
theorem blocksOf_zero (events : List Event) :
    (∀ b ∈ blocksOf 0 events, b.length = 1) ∧ (blocksOf 0 events).length = events.length := by
  have hcut := blocksOf_cut 0 events
  have hone : ∀ b ∈ blocksOf 0 events, b.length = 1 := fun b hb => by
    have hne := hcut.nonempty b hb
    have hpos := List.length_pos_iff.mpr hne
    by_contra hlong
    have hle := hcut.small b hb (by omega)
    rw [blockBytes_length hne, BlockBuilder.encodedSize] at hle
    omega
  refine ⟨hone, ?_⟩
  have hlen := congrArg List.length hcut.flatten
  rw [Blocks.length_flatten hone, Nat.mul_one] at hlen
  exact hlen

/-- Up to 2^32 events in blocks of one each are within all bounds but the count's. -/
theorem zero_target_fits (level sequence : Nat) {filter : BloomFilter} (h : filter.Addressed)
    (hmany : events.length ≤ 2 ^ 32) :
    (∀ b ∈ blocksOf 0 events, (blockBytes b).length < 2 ^ 32) ∧
      (write level sequence 0 filter events).1.length < 2 ^ 63 := by
  have hcut := blocksOf_cut 0 events
  obtain ⟨hone, hcount⟩ := blocksOf_zero events
  have hsizes : ∀ b ∈ blocksOf 0 events, (blockBytes b).length = 113 := fun b hb => by
    rw [blockBytes_length (hcut.nonempty b hb), hone b hb]
    rfl
  refine ⟨fun b hb => by rw [hsizes b hb]; decide, ?_⟩
  obtain ⟨filled, -, hlen⟩ := write_length level sequence 0 h events
  have hdata : ((blocksOf 0 events).flatMap blockBytes).length = events.length * 113 := by
    rw [List.flatMap_def, Blocks.length_flatten (n := 113), List.length_map, hcount]
    intro l hl
    obtain ⟨b, hb, rfl⟩ := List.mem_map.mp hl
    exact hsizes b hb
  have hbits : BloomFilter.byte_count filled.m < 2 ^ 32 := UInt32.toNat_lt _
  have hfooter : kSSTableFooterSize = 56 := rfl
  have hentry : IndexEntry.kEncodedSize = 32 := rfl
  rw [hlen, hdata, hcount, hentry, hfooter]
  omega

/-- Whatever sorted events are written, with whatever target: the file opens, a
scan of any range hands over its events one after the other until the callback
has enough, the meta block is that of the events, and the blocks that are
larger than the target hold one event. -/
theorem table_round_trip (level sequence target : Nat) (size : FilterSize) (path : SSTablePath)
    {events : List Event} (hsorted : Keyed.Sorted Event.key events)
    (hfits : Storable target events (write level sequence target (.new size) events).1) :
    ∃ r, open_ path (write level sequence target (.new size) events).1 = .ok r ∧
      (∀ (σ : Type) (cb : Callback σ) (s : σ) (start end_ : Key),
        r.scan start end_ cb s none =
          ⟨(feed cb s (events.filter (inRange start end_))).1, none, none⟩) ∧
      (∀ (start end_ : Key) (j : Nat), 0 < j →
        (r.scan start end_ (upTo j) [] none).state =
          (events.filter (inRange start end_)).take j) ∧
      r.info.event_count = events.length ∧
      (∀ e ∈ events, r.info.min_key ≤ e.key ∧ e.key ≤ r.info.max_key) ∧
      (events ≠ [] → r.info.min_key ∈ events.map Event.key ∧
        r.info.max_key ∈ events.map Event.key) ∧
      ∀ entry ∈ r.index.entries, ∃ blk,
        r.read_block_at entry.block_offset entry.block_size none = (.ok blk, none) ∧
          (blk.events.length = 1 ∨ entry.block_size.toNat ≤ target) := by
  have hfilter := BloomFilter.new_addressed size
  obtain ⟨r, hopen, -, -, hr⟩ := open_written hfilter hfits.sizes hfits.file path
  have hcut := blocksOf_cut target events
  have hscan := fun σ (cb : Callback σ) s start end_ =>
    hr.scan_all hsorted hfits.count cb s start end_
  have hmin : r.info.min_key = firstKey events := by rw [hr.info]; rfl
  have hmax : r.info.max_key = (events.getLast?.map Event.key).getD ⟨0, 0, 0⟩ := by
    rw [hr.info]; rfl
  refine ⟨r, hopen, hscan, fun start end_ j hj => ?_, ?_, fun e he => ?_, fun hne => ?_,
    fun entry hentry => ?_⟩
  · rw [hscan]
    exact feed_upTo hj _
  · have hlt := events_lt level sequence hfilter hfits.file
    have hcount : r.info.event_count = events.length % 2 ^ 64 := by rw [hr.info]; rfl
    rw [hcount, Nat.mod_eq_of_lt (by omega)]
  · rw [hmin, hmax]
    exact write_covers level sequence hsorted he
  · obtain ⟨e, es, he⟩ := List.exists_cons_of_ne_nil hne
    obtain ⟨back, hback⟩ := Option.ne_none_iff_exists'.mp (mt List.getLast?_eq_none_iff.mp hne)
    rw [hmin, hmax, hback]
    constructor
    · rw [he]
      exact List.mem_map_of_mem List.mem_cons_self
    · exact List.mem_map_of_mem (List.mem_of_getLast? hback)
  · obtain ⟨i, hi⟩ := List.mem_iff_getElem?.mp hentry
    obtain ⟨block, hblock, hhold⟩ := hold_at hr.blocks hi
    have hmem := List.mem_of_mem_take (List.mem_of_getElem? hblock)
    obtain ⟨m, hread⟩ := read_block hhold
    refine ⟨_, hread, ?_⟩
    by_cases hone : block.length = 1
    · exact .inl hone
    · have hpos := List.length_pos_iff.mpr hhold.nonempty
      have hsmall := hcut.small block hmem (by omega)
      have hsize : entry.block_size.toNat = (blockBytes block).length := by
        have hread := hhold.read
        rw [pread] at hread
        split at hread
        · next hok => rw [← Option.some.inj hread, hok.2]
        · cases hread
      exact .inr (hsize ▸ hsmall)

/-- Two events, a block each. -/
def twoTrades : List Event := [{ timestamp_ns := 1 }, { timestamp_ns := 2 }]

theorem table_round_trip_two : ∃ r,
    open_ ⟨0, .flushed 1⟩ (write 0 1 0 (.new .default) twoTrades).1 = .ok r ∧
      (r.scan Compaction.minKey Compaction.maxKey (upTo 1) [] none).state =
        [{ timestamp_ns := 1 }] ∧ r.info.event_count = 2 := by
  have hfits : Storable 0 twoTrades (write 0 1 0 (.new .default) twoTrades).1 := by
    obtain ⟨hsizes, hfile⟩ := zero_target_fits 0 1 (BloomFilter.new_addressed .default)
      (show twoTrades.length ≤ 2 ^ 32 by decide)
    exact ⟨hsizes, by rw [(blocksOf_zero twoTrades).2]; decide, hfile⟩
  obtain ⟨r, hopen, -, hstop, hcount, -⟩ :=
    table_round_trip 0 1 0 .default ⟨0, .flushed 1⟩ (show Keyed.Sorted Event.key twoTrades by decide)
      hfits
  refine ⟨r, hopen, ?_, hcount⟩
  rw [hstop _ _ 1 (by decide)]
  decide

/-! ## Point lookups -/

/-- With a filter of any size and number of hashes, a lookup answers the event of
the key, and nothing where there is none. -/
theorem get_agrees (level sequence target : Nat) (m k : UInt32) (hpos : 1 ≤ m.toNat)
    (hroom : m.toNat < 2 ^ 32 - 7) (path : SSTablePath) {events : List Event}
    (hsorted : Keyed.Sorted Event.key events)
    (hfits : Storable target events (write level sequence target (.blank m k) events).1) :
    ∃ r, open_ path (write level sequence target (.blank m k) events).1 = .ok r ∧
      ∀ q : Key, ∃ found, r.get q none = ⟨found, none, none⟩ ∧
        (found.isSome ↔ ∃ e ∈ events, e.key = q) ∧ ∀ e ∈ events, e.key = q → found = some e := by
  have hfilter := BloomFilter.blank_addressed k hpos (show m.toNat + 7 < 2 ^ 32 by omega)
  obtain ⟨r, hopen, -, -, hr⟩ := open_written hfilter hfits.sizes hfits.file path
  refine ⟨r, hopen, fun q => ?_⟩
  rw [SSTableReader.get]
  split
  · next hno =>
      have habsent : ∀ e ∈ events, e.key ≠ q := fun e he hkey =>
        hno.2 (hkey ▸ hr.keys e he)
      refine ⟨none, rfl, iff_of_false (by simp) ?_, fun e he hkey => absurd hkey (habsent e he)⟩
      rintro ⟨e, he, hkey⟩
      exact habsent e he hkey
  · rw [hr.scan_all hsorted hfits.count]
    have hwanted : ∀ e, e ∈ events.filter (inRange q q) ↔ e ∈ events ∧ e.key = q := fun e => by
      rw [List.mem_filter, inRange, decide_eq_true_eq, and_comm (a := q ≤ e.key), ← le_antisymm_iff]
    cases hrange : events.filter (inRange q q) with
    | nil =>
        have habsent : ∀ e ∈ events, e.key ≠ q := fun e he hkey => by
          have hmem := (hwanted e).mpr ⟨he, hkey⟩
          rw [hrange] at hmem
          cases hmem
        refine ⟨none, rfl, iff_of_false (by simp) ?_, fun e he hkey => absurd hkey (habsent e he)⟩
        rintro ⟨e, he, hkey⟩
        exact habsent e he hkey
    | cons x xs =>
        obtain ⟨hx, hxq⟩ := (hwanted x).mp (hrange ▸ List.mem_cons_self)
        refine ⟨some x, rfl, iff_of_true rfl ⟨x, hx, hxq⟩, fun e he hkey => ?_⟩
        rw [hsorted.inj he hx (hkey.trans hxq.symm)]

/-- The second of the two, and a key that neither has. -/
theorem get_agrees_two : ∃ r,
    open_ ⟨0, .flushed 1⟩ (write 0 1 0 (.blank 9 2) twoTrades).1 = .ok r ∧
      r.get ⟨0, 2, 0⟩ none = ⟨some { timestamp_ns := 2 }, none, none⟩ ∧
      r.get ⟨0, 3, 0⟩ none = ⟨none, none, none⟩ := by
  have hfits : Storable 0 twoTrades (write 0 1 0 (.blank 9 2) twoTrades).1 := by
    obtain ⟨hsizes, hfile⟩ := zero_target_fits 0 1
      (BloomFilter.blank_addressed 2 (show 0 < (9 : UInt32).toNat by decide) (by decide))
      (show twoTrades.length ≤ 2 ^ 32 by decide)
    exact ⟨hsizes, by rw [(blocksOf_zero twoTrades).2]; decide, hfile⟩
  obtain ⟨r, hopen, hget⟩ := get_agrees 0 1 0 9 2 (by decide) (by decide) ⟨0, .flushed 1⟩
    (show Keyed.Sorted Event.key twoTrades by decide) hfits
  refine ⟨r, hopen, ?_, ?_⟩
  · obtain ⟨found, heq, -, hfound⟩ := hget ⟨0, 2, 0⟩
    rw [heq, hfound { timestamp_ns := 2 } (by decide) rfl]
  · obtain ⟨found, heq, hsome, -⟩ := hget ⟨0, 3, 0⟩
    have hnone : found = none := by
      rw [← Option.not_isSome_iff_eq_none, hsome]
      decide
    rw [heq, hnone]

/-! ## Too many blocks -/

/-- As many events as there are 32-bit numbers, a nanosecond apart. -/
def manyEvents : List Event :=
  (List.range (2 ^ 32)).map fun i => { timestamp_ns := .ofNat i }

theorem manyEvents_sorted : Keyed.Sorted Event.key manyEvents := by
  refine List.pairwise_map.mpr ((List.pairwise_lt_range).imp_of_mem fun {i j} hi hj hlt => ?_)
  have hj := List.mem_range.mp hj
  have hof : ∀ n < 2 ^ 32, (UInt64.ofNat n).toNat = n := fun n hn =>
    UInt64.toNat_ofNat_of_lt' (show n < 2 ^ 64 by omega)
  refine lt_of_le_of_ne (Key.le_iff.mpr (.inr ⟨rfl, .inl ?_⟩)) fun heq => ?_
  · change (UInt64.ofNat i).toNat < (UInt64.ofNat j).toNat
    rw [hof i (by omega), hof j hj]
    exact hlt
  · have hts := congrArg (fun k => k.timestamp_ns.toNat) heq
    change (UInt64.ofNat i).toNat = (UInt64.ofNat j).toNat at hts
    rw [hof i (by omega), hof j hj] at hts
    omega

/-- All bounds but one, and what opening their file gives. -/
theorem manyEvents_opened : (∀ b ∈ blocksOf 0 manyEvents, (blockBytes b).length < 2 ^ 32) ∧
    (write 0 1 0 (.new .default) manyEvents).1.length < 2 ^ 63 ∧
    ∃ r, open_ ⟨0, .flushed 1⟩ (write 0 1 0 (.new .default) manyEvents).1 = .ok r ∧
      OfWriter 0 1 0 manyEvents r ∧
      ∀ (σ : Type) (cb : Callback σ) (s : σ) (start end_ : Key),
        r.scan start end_ cb s none = ⟨s, none, none⟩ := by
  have hmany : manyEvents.length = 2 ^ 32 := by rw [manyEvents, List.length_map, List.length_range]
  have hcount := (blocksOf_zero manyEvents).2
  rw [hmany] at hcount
  have hfilter := BloomFilter.new_addressed .default
  obtain ⟨hsizes, hfile⟩ := zero_target_fits 0 1 hfilter hmany.le
  obtain ⟨r, hopen, -, -, hr⟩ := open_written hfilter hsizes hfile ⟨0, .flushed 1⟩
  refine ⟨hsizes, hfile, r, hopen, hr, fun σ cb s start end_ => ?_⟩
  rw [hr.scan_feed manyEvents_sorted, hcount]
  rfl

theorem first_mem_manyEvents : ({} : Event) ∈ manyEvents :=
  List.mem_map.mpr ⟨0, List.mem_range.mpr (by decide), rfl⟩

/-- Nothing of them comes back: every block fits its size, the file opens, and a
scan of everything hands over no event. -/
theorem index_count_wraps : (∀ b ∈ blocksOf 0 manyEvents, (blockBytes b).length < 2 ^ 32) ∧
    (write 0 1 0 (.new .default) manyEvents).1.length < 2 ^ 63 ∧
    manyEvents.filter (inRange Compaction.minKey Compaction.maxKey) ≠ [] ∧
    ∃ r, open_ ⟨0, .flushed 1⟩ (write 0 1 0 (.new .default) manyEvents).1 = .ok r ∧
      ∀ j, (r.scan Compaction.minKey Compaction.maxKey (upTo j) [] none).state = [] := by
  obtain ⟨hsizes, hfile, r, hopen, -, hscan⟩ := manyEvents_opened
  refine ⟨hsizes, hfile, fun hnil => ?_, r, hopen, fun j => by rw [hscan]⟩
  have hin : inRange Compaction.minKey Compaction.maxKey {} = true := by decide
  have hmem := List.mem_filter.mpr ⟨first_mem_manyEvents, hin⟩
  rw [hnil] at hmem
  cases hmem

/-- Neither is the first of them found by its key. -/
theorem written_key_missed : (∀ b ∈ blocksOf 0 manyEvents, (blockBytes b).length < 2 ^ 32) ∧
    (write 0 1 0 (.new .default) manyEvents).1.length < 2 ^ 63 ∧ {} ∈ manyEvents ∧
    ∃ r, open_ ⟨0, .flushed 1⟩ (write 0 1 0 (.new .default) manyEvents).1 = .ok r ∧
      r.get (Event.key {}) none = ⟨none, none, none⟩ := by
  obtain ⟨hsizes, hfile, r, hopen, hr, hscan⟩ := manyEvents_opened
  refine ⟨hsizes, hfile, first_mem_manyEvents, r, hopen, ?_⟩
  rw [SSTableReader.get, if_neg fun hno => hno.2 (hr.keys _ first_mem_manyEvents), hscan]

end Kronos
