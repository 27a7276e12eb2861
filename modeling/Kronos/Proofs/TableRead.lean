import Kronos.Lib.Blocks
import Kronos.Proofs.Tables
import Kronos.Proofs.TableWrite

/-!
# Reading a table back

The reader finds the parts of a file where the footer says they are. The
entries of the index and the blocks of the file stand side by side, so a scan
over the entries feeds the blocks, and what the index and the filter leave out
holds nothing of the range.

If the count of the index says less than all of it, what is read back is the
table of the first blocks.
-/

namespace Kronos

open Spec SSTableReader SSTableWriter

/-! ## Parts of a file -/

theorem toNat_ofNat64 {n : Nat} (h : n < 2 ^ 64) : (UInt64.ofNat n).toNat = n :=
  UInt64.toNat_ofNat_of_lt' h

theorem pread_part {a b c : Bytes} {size : Nat} (hsize : b.length = size)
    (h : a.length < 2 ^ 63) : pread (a ++ (b ++ c)) size (.ofNat a.length) = some b := by
  have htake : ((a ++ (b ++ c)).drop a.length).take size = b := by
    rw [List.drop_left, List.take_left' hsize]
  rw [pread, toNat_ofNat64 (by omega), htake]
  exact if_pos ⟨h, hsize⟩

theorem read_part_of {a b c : Bytes} (err : TableError) (h : (a ++ (b ++ c)).length < 2 ^ 63) :
    read_part (a ++ (b ++ c)) (.ofNat b.length) (.ofNat a.length) err = .ok b := by
  simp only [List.length_append] at h
  rw [read_part, pread_part (toNat_ofNat64 (by omega)).symm (by omega)]

theorem footer_length (a b c d e f : Nat) : (footer a b c d e f).length = kSSTableFooterSize := by
  simp [footer, kSSTableFooterSize]

theorem load_filter_written {filter : BloomFilter} (h : filter.Addressed) {a c : Bytes}
    (hlen : (a ++ (filter.encode ++ c)).length < 2 ^ 63) :
    load_filter (a ++ (filter.encode ++ c)) (.ofNat a.length) (.ofNat filter.encode.length) =
      .ok filter := by
  have hsize := h.encode_length
  have hne : UInt64.ofNat filter.encode.length ≠ 0 := fun heq => by
    have hzero := congrArg UInt64.toNat heq
    simp only [List.length_append] at hlen
    rw [toNat_ofNat64 (by omega), hsize] at hzero
    simp at hzero
  rw [load_filter, if_neg hne, read_part_of _ hlen]
  exact BloomFilter.decode_encode h

/-- A sum of two sizes that are in the file is. -/
theorem in_bounds {a b n : Nat} (h : a + b ≤ n) (hn : n < 2 ^ 63) :
    ¬ UInt64.ofNat n < UInt64.ofNat a + UInt64.ofNat b := by
  rw [UInt64.lt_iff_toNat_lt, UInt64.toNat_add, toNat_ofNat64 (by omega),
    toNat_ofNat64 (show a < 2 ^ 64 by omega), toNat_ofNat64 (show b < 2 ^ 64 by omega)]
  omega

/-- The parts that `finish` laid down are the parts that are loaded. -/
theorem open_layout {data : Bytes} {filter : BloomFilter} (hfilter : filter.Addressed)
    {index : IndexBlock} {m : StoredMeta} (path : SSTablePath)
    (hlen : (layout data filter.encode index.encode (encode_meta m)).length < 2 ^ 63) :
    open_ path (layout data filter.encode index.encode (encode_meta m)) =
      .ok { path
            file := layout data filter.encode index.encode (encode_meta m)
            info := m.cut
            index := ⟨index.entries.take (IndexBlock.readBack index.entries.length)⟩
            filter } := by
  generalize hfile : layout data filter.encode index.encode (encode_meta m) = file at hlen
  have hparts := hfile
  rw [layout] at hparts
  have hsize : file.length = data.length + (filter.encode.length + (index.encode.length +
      ((encode_meta m).length + kSSTableFooterSize))) := by
    rw [← hparts]
    simp only [List.length_append, footer_length]
  have hfooter : ∀ foot : Bytes, foot.length = kSSTableFooterSize →
      data ++ (filter.encode ++ (index.encode ++ (encode_meta m ++ foot))) = file →
        pread file kSSTableFooterSize (UInt64.ofNat file.length - .ofNat kSSTableFooterSize) =
          some foot := by
    intro foot hfoot heq
    have hoff : UInt64.ofNat file.length - .ofNat kSSTableFooterSize = .ofNat
        (data ++ (filter.encode ++ (index.encode ++ encode_meta m))).length := by
      rw [← UInt64.toNat_inj, UInt64.toNat_sub_of_le, toNat_ofNat64 (by omega)]
      · simp only [List.length_append]
        rw [toNat_ofNat64 (by omega), hsize]
        simp only [kSSTableFooterSize, UInt64.toNat_ofNat']
        omega
      · have hfooter : (UInt64.ofNat kSSTableFooterSize).toNat = kSSTableFooterSize := rfl
        rw [UInt64.le_iff_toNat_le, hfooter, toNat_ofNat64 (by omega)]
        omega
    rw [hoff, ← heq]
    have hpart := pread_part (a := data ++ (filter.encode ++ (index.encode ++ encode_meta m)))
      (b := foot) (c := []) hfoot (by
        rw [hsize] at hlen
        simp only [List.length_append]
        omega)
    simpa only [List.append_assoc, List.append_nil] using hpart
  have hload := load_filter_written hfilter (a := data) (c := index.encode ++ (encode_meta m ++
    footer data.length filter.encode.length (data.length + filter.encode.length)
      index.encode.length (data.length + filter.encode.length + index.encode.length)
      (encode_meta m).length)) (by rw [hparts]; exact hlen)
  have hindex := read_part_of (a := data ++ filter.encode) (b := index.encode) (c := encode_meta m ++
    footer data.length filter.encode.length (data.length + filter.encode.length)
      index.encode.length (data.length + filter.encode.length + index.encode.length)
      (encode_meta m).length) .index_read_failed (by
        rw [List.append_assoc, hparts]
        exact hlen)
  have hmeta := read_part_of (a := data ++ (filter.encode ++ index.encode)) (b := encode_meta m)
    (c := footer data.length filter.encode.length (data.length + filter.encode.length)
      index.encode.length (data.length + filter.encode.length + index.encode.length)
      (encode_meta m).length) .meta_read_failed (by
        rw [List.append_assoc, List.append_assoc, hparts]
        exact hlen)
  rw [hparts] at hload
  rw [List.append_assoc, hparts, List.length_append] at hindex
  rw [List.append_assoc, List.append_assoc, hparts, List.length_append, List.length_append,
    ← Nat.add_assoc] at hmeta
  rw [open_, if_neg (by rw [hsize]; omega), hfooter _ (footer_length ..) hparts]
  simp only [footer, List.append_assoc, r64_w64]
  have hdrop : ∀ (n : Nat) (v : UInt64) (r : Bytes), (w64 v ++ r).drop (8 + n) = r.drop n :=
    fun n v r => by rw [← List.drop_drop, drop_w64]
  rw [show (16 : Nat) = 8 + 8 from rfl, show (24 : Nat) = 8 + (8 + 8) from rfl,
    show (32 : Nat) = 8 + (8 + (8 + 8)) from rfl, show (40 : Nat) = 8 + (8 + (8 + (8 + 8))) from rfl,
    show (48 : Nat) = 8 + (8 + (8 + (8 + (8 + 8)))) from rfl]
  simp only [hdrop, drop_w64, r64_w64, r32_w32]
  rw [if_neg (fun hne => hne rfl), if_neg]
  · simp only [hload, hindex, hmeta, bind, Except.bind, IndexBlock.decode_encode,
      decode_meta_encode_meta]
  · rintro (hout | hout | hout) <;> exact absurd hout (in_bounds (by omega) hlen)

/-! ## Blocks -/

/-- An index entry and the block it stands for. -/
structure Holds (file : Bytes) (entry : IndexEntry) (block : List Event) : Prop where
  first_key : entry.first_key = firstKey block
  read : pread file entry.block_size.toNat entry.block_offset = some (blockBytes block)
  nonempty : block ≠ []
  count : block.length < 2 ^ 32

theorem entries_hold {file front back : Bytes} {blocks : List (List Event)}
    (hfile : front ++ (blocks.flatMap blockBytes ++ back) = file) (hlen : file.length < 2 ^ 63)
    (hne : ∀ b ∈ blocks, b ≠ []) (hsize : ∀ b ∈ blocks, (blockBytes b).length < 2 ^ 32) :
    List.Forall₂ (Holds file) (entriesAt front.length blocks) blocks := by
  induction blocks generalizing front with
  | nil => exact .nil
  | cons b bs ih =>
      have hb := hsize b List.mem_cons_self
      have hbne := hne b List.mem_cons_self
      have hbytes := blockBytes_length hbne
      rw [List.flatMap_cons, List.append_assoc] at hfile
      have hfit : front.length < 2 ^ 63 := by
        rw [← hfile, List.length_append] at hlen
        omega
      refine .cons ⟨rfl, ?_, hbne, ?_⟩ ?_
      · rw [← hfile]
        exact pread_part (UInt32.toNat_ofNat_of_lt' hb).symm hfit
      · rw [hbytes, BlockBuilder.encodedSize, Event.kEncodedSize] at hb
        omega
      · rw [← List.length_append]
        refine ih ?_ (fun b hb => hne b (List.mem_cons_of_mem _ hb)) fun b hb =>
          hsize b (List.mem_cons_of_mem _ hb)
        rw [List.append_assoc]
        exact hfile

theorem Holds.decode {file : Bytes} {entry : IndexEntry} {block : List Event}
    (h : Holds file entry block) : ∃ m, Block.decode (blockBytes block) = .ok ⟨m, block⟩ :=
  BlockBuilder.decode_finish (b := ⟨0, block⟩) h.nonempty h.count

section
variable {r : SSTableReader} {σ : Type} {start end_ : Key} (cb : Callback σ)

theorem read_block {entry : IndexEntry} {block : List Event} (h : Holds r.file entry block) :
    ∃ m, r.read_block_at entry.block_offset entry.block_size none = (.ok ⟨m, block⟩, none) := by
  obtain ⟨m, hm⟩ := h.decode
  refine ⟨m, ?_⟩
  rw [read_block_at]
  simp only [h.read, hm]

/-- Scanning the entries from `i` on feeds the blocks they stand for, up to the
first that starts above the range. -/
theorem scan_blocks_feed {entries : List IndexEntry} {blocks : List (List Event)}
    (h : List.Forall₂ (Holds r.file) entries blocks)
    (hsorted : ∀ b ∈ blocks, Keyed.Sorted Event.key b) {i : Nat}
    (hi : r.index.entries.drop i = entries) (s : σ) :
    r.scan_blocks start end_ cb (IndexBlock.push_from end_ i entries) s none =
      ⟨(feed cb s ((blocks.takeWhile (Blocks.startsBy Event.key end_)).flatten.filter
        (inRange start end_))).1, none, none⟩ := by
  induction h generalizing i s with
  | nil => rfl
  | @cons entry block entries blocks hhold _ ih =>
      obtain ⟨e, es, rfl⟩ := List.exists_cons_of_ne_nil hhold.nonempty
      have hfirst : entry.first_key = e.key := hhold.first_key
      have hget : r.index.entries[i]? = some entry := by
        rw [← List.head?_drop, hi]
        rfl
      have hrest : r.index.entries.drop (i + 1) = entries := by
        rw [← List.tail_drop, hi]
        rfl
      rw [IndexBlock.push_from, hfirst, List.takeWhile_cons]
      by_cases hend : end_ < e.key
      · rw [if_pos hend, if_neg (by simpa [Blocks.startsBy] using hend)]
        rfl
      · rw [if_neg hend, if_pos (by simpa [Blocks.startsBy] using not_lt.mp hend)]
        obtain ⟨m, hread⟩ := read_block hhold
        have hscan : block_scan start end_ cb s (e :: es) =
            feed cb s ((e :: es).filter (inRange start end_)) :=
          block_scan_feed cb (hsorted _ List.mem_cons_self) s
        rw [scan_blocks, hget, List.flatten_cons, List.filter_append, feed_append]
        simp only [hread, hscan]
        rcases feed cb s ((e :: es).filter (inRange start end_)) with ⟨s', more⟩
        cases more with
        | false => rfl
        | true => exact ih (fun b hb => hsorted b (List.mem_cons_of_mem _ hb)) hrest s'

theorem hold_at {file : Bytes} {entries : List IndexEntry} {blocks : List (List Event)}
    (h : List.Forall₂ (Holds file) entries blocks) {i : Nat} {entry : IndexEntry}
    (hi : entries[i]? = some entry) : ∃ block, blocks[i]? = some block ∧ Holds file entry block := by
  obtain ⟨hlt, rfl⟩ := List.getElem?_eq_some_iff.mp hi
  obtain ⟨hlen, hget⟩ := List.forall₂_iff_get.mp h
  exact ⟨blocks[i], List.getElem?_eq_getElem (hlen ▸ hlt), hget i hlt (hlen ▸ hlt)⟩

/-- A scan feeds the range of the blocks that the index has entries for. -/
theorem scan_feed {blocks : List (List Event)}
    (h : List.Forall₂ (Holds r.file) r.index.entries blocks) (hne : ∀ b ∈ blocks, b ≠ [])
    (hsorted : Keyed.Sorted Event.key blocks.flatten)
    (hmay : r.may_contain start end_ = false → blocks.flatten.filter (inRange start end_) = [])
    (s : σ) :
    r.scan start end_ cb s none =
      ⟨(feed cb s (blocks.flatten.filter (inRange start end_))).1, none, none⟩ := by
  rw [scan]
  split
  · rw [IndexBlock.blocks_in_range]
    split
    · next hnil =>
        rw [hnil] at h
        cases h
        rfl
    · have hyes := Bisect.bisect_yes
        (fun mid => r.index.entries[mid]?.any (·.first_key ≤ start)) 0 r.index.entries.length
      dsimp only
      generalize Bisect.bisect (fun mid => r.index.entries[mid]?.any (·.first_key ≤ start)) 0
        r.index.entries.length = first at hyes ⊢
      have hstart : first = 0 ∨
          ∃ a block, blocks[first]? = some (a :: block) ∧ a.key ≤ start := by
        refine hyes.imp id fun hany => ?_
        obtain ⟨entry, hentry, hle⟩ := (Option.any_eq_true _ _).mp hany
        obtain ⟨block, hblock, hhold⟩ := hold_at h hentry
        obtain ⟨a, as, rfl⟩ := List.exists_cons_of_ne_nil hhold.nonempty
        have hfirst : entry.first_key = a.key := hhold.first_key
        exact ⟨a, as, hblock, hfirst ▸ of_decide_eq_true hle⟩
      have hwindow := Blocks.filter_window (p := inRange start end_) hne hsorted
        (fun a ha => by rwa [inRange, decide_eq_true_eq] at ha) hstart
      have hblocks : ∀ b ∈ blocks.drop first, Keyed.Sorted Event.key b := fun b hb =>
        hsorted.sublist (List.sublist_flatten_of_mem (List.mem_of_mem_drop hb))
      rw [scan_blocks_feed cb (List.forall₂_drop first h) hblocks rfl, hwindow]
  · next hno =>
      rw [hmay (Bool.eq_false_iff.mpr hno)]
      rfl

end

/-! ## What was written -/

/-- The reader of a file that a writer finished. -/
structure OfWriter (level sequence target : Nat) (events : List Event) (r : SSTableReader) :
    Prop where
  info : r.info = (storedMeta level sequence events
    ((blocksOf target events).flatMap blockBytes).length).cut
  blocks : List.Forall₂ (Holds r.file) r.index.entries
    ((blocksOf target events).take (IndexBlock.readBack (blocksOf target events).length))
  keys : ∀ e ∈ events, r.filter.may_contain e.key.encode = true

variable {level sequence target : Nat} {filter : BloomFilter} {events : List Event}

/-- The reader of a finished file, as it stands in the file's layout. -/
theorem open_finished (hfilter : filter.Addressed)
    (hfile : (write level sequence target filter events).1.length < 2 ^ 63) (path : SSTablePath) :
    ∃ filled : BloomFilter, (∀ e ∈ events, filled.may_contain e.key.encode = true) ∧
      (∃ back, (write level sequence target filter events).1 =
        (blocksOf target events).flatMap blockBytes ++ back) ∧
      open_ path (write level sequence target filter events).1 =
        .ok { path
              file := (write level sequence target filter events).1
              info := (storedMeta level sequence events
                ((blocksOf target events).flatMap blockBytes).length).cut
              index := ⟨(entriesAt 0 (blocksOf target events)).take
                (IndexBlock.readBack (blocksOf target events).length)⟩
              filter := filled } := by
  obtain ⟨filled, haddressed, hkeys, hwrite⟩ :=
    write_layout level sequence target hfilter events
  rw [hwrite] at hfile ⊢
  refine ⟨filled, hkeys, ⟨_, rfl⟩, ?_⟩
  rw [open_layout haddressed path hfile]
  simp only [entriesAt_length]

theorem open_written (hfilter : filter.Addressed)
    (hblocks : ∀ b ∈ blocksOf target events, (blockBytes b).length < 2 ^ 32)
    (hfile : (write level sequence target filter events).1.length < 2 ^ 63) (path : SSTablePath) :
    ∃ r, open_ path (write level sequence target filter events).1 = .ok r ∧
      r.file = (write level sequence target filter events).1 ∧ r.path = path ∧
      OfWriter level sequence target events r := by
  obtain ⟨filled, hkeys, ⟨back, hback⟩, hopen⟩ := open_finished hfilter hfile path
  refine ⟨_, hopen, rfl, rfl, rfl, ?_, hkeys⟩
  have hfront : [] ++ ((blocksOf target events).flatMap blockBytes ++ back) =
      (write level sequence target filter events).1 := hback.symm
  have hall := entries_hold hfront hfile (blocksOf_cut target events).nonempty hblocks
  exact List.forall₂_take _ hall

namespace OfWriter

variable {r : SSTableReader} (h : OfWriter level sequence target events r)
  (hsorted : Keyed.Sorted Event.key events)

include h hsorted in
/-- What the meta block or the filter rules out holds nothing of the range. -/
theorem rules_out {start end_ : Key} (hmay : r.may_contain start end_ = false) :
    events.filter (inRange start end_) = [] := by
  refine List.filter_eq_nil_iff.mpr fun e he hin => ?_
  rw [inRange, decide_eq_true_eq] at hin
  obtain ⟨hmin, hmax⟩ := write_covers level sequence hsorted he
  have hminkey : r.info.min_key = (SSTable.write level sequence events).meta_.min_key := by
    rw [h.info]
    rfl
  have hmaxkey : r.info.max_key = (SSTable.write level sequence events).meta_.max_key := by
    rw [h.info]
    rfl
  rw [may_contain, hminkey, hmaxkey, if_neg] at hmay
  · split at hmay
    · next hpoint =>
        have hkey : start = e.key := le_antisymm hin.1 (hpoint.1 ▸ hin.2)
        rw [hkey, h.keys e he] at hmay
        cases hmay
    · cases hmay
  · rintro (hout | hout)
    · exact absurd (hout.trans_le hmin) (not_lt.mpr hin.2)
    · exact absurd (hmax.trans_lt hout) (not_lt.mpr hin.1)

include h hsorted in
/-- A scan of the file feeds the range of the blocks that the index still has. -/
theorem scan_feed {σ : Type} (cb : Callback σ) (s : σ) (start end_ : Key) :
    r.scan start end_ cb s none =
      ⟨(feed cb s (((blocksOf target events).take
        (IndexBlock.readBack (blocksOf target events).length)).flatten.filter
          (inRange start end_))).1, none, none⟩ := by
  have hcut := blocksOf_cut target events
  have hsub : ((blocksOf target events).take
      (IndexBlock.readBack (blocksOf target events).length)).flatten.Sublist events := by
    have hflat := (List.take_sublist (IndexBlock.readBack (blocksOf target events).length)
      (blocksOf target events)).flatten
    rwa [hcut.flatten] at hflat
  refine Kronos.scan_feed cb h.blocks (fun b hb => hcut.nonempty b (List.mem_of_mem_take hb))
    (hsorted.sublist hsub) (fun hmay => ?_) s
  have hnone := h.rules_out hsorted hmay
  exact List.sublist_nil.mp (hnone ▸ hsub.filter _)

include h hsorted in
/-- With a count that fits, that is the table. -/
theorem scan_all (hcount : (blocksOf target events).length < 2 ^ 32) {σ : Type}
    (cb : Callback σ) (s : σ) (start end_ : Key) :
    r.scan start end_ cb s none =
      ⟨(feed cb s (events.filter (inRange start end_))).1, none, none⟩ := by
  have hscan := h.scan_feed hsorted cb s start end_
  rw [IndexBlock.readBack_eq hcount, List.take_length, (blocksOf_cut target events).flatten] at hscan
  exact hscan

end OfWriter

/-- A callback that has enough after `j` events gets the first `j`. -/
theorem feed_upTo {j : Nat} (hj : 0 < j) (l : List Event) : (feed (upTo j) [] l).1 = l.take j := by
  have hgo : ∀ (seen l : List Event), seen.length < j →
      (feed (upTo j) seen l).1 = seen ++ l.take (j - seen.length) := by
    intro seen l
    induction l generalizing seen with
    | nil => simp [feed]
    | cons e es ih =>
        intro hlt
        have hlen : (seen ++ [e]).length = seen.length + 1 := by simp
        rw [feed, upTo]
        by_cases hlast : seen.length + 1 = j
        · have hone : j - seen.length = 1 := by omega
          rw [decide_eq_false fun hne => hne hlast, hone]
          rfl
        · have hmore : j - seen.length = (j - (seen ++ [e]).length) + 1 := by omega
          rw [decide_eq_true hlast]
          dsimp only
          rw [ih _ (by omega), hmore, List.take_succ_cons, List.append_assoc]
          rfl
  have h := hgo [] l hj
  rwa [List.nil_append, List.length_nil, Nat.sub_zero] at h

end Kronos
