import Kronos.Lib.Blocks
import Kronos.Lib.NewestWins
import Kronos.Proofs.Tables

/-!
# What a compaction writes

Reading the inputs gives every version with the number of its file. Sorting
and deduplicating them is the newest-wins merge, and writing the merge cuts it
into files of a fixed number of records, all but the last of them full,
numbered on from the one the compaction was given.
-/

namespace Kronos

namespace Compaction

/-! ## Reading -/

theorem minKey_le (k : Key) : minKey ≤ k := by
  rw [Key.le_iff]
  have h1 : minKey.symbol_id.toNat = 0 := rfl
  have h2 : minKey.timestamp_ns.toNat = 0 := rfl
  have h3 : minKey.sequence_id.toNat = 0 := rfl
  simp only [← UInt32.toNat_inj, ← UInt64.toNat_inj]
  omega

theorem le_maxKey (k : Key) : k ≤ maxKey := by
  rw [Key.le_iff]
  have hid := k.symbol_id.toNat_lt
  have hts := k.timestamp_ns.toNat_lt
  have hseq := k.sequence_id.toNat_lt
  have h1 : maxKey.symbol_id.toNat = 2 ^ 32 - 1 := rfl
  have h2 : maxKey.timestamp_ns.toNat = 2 ^ 64 - 1 := rfl
  have h3 : maxKey.sequence_id.toNat = 2 ^ 64 - 1 := rfl
  simp only [← UInt32.toNat_inj, ← UInt64.toNat_inj]
  omega

/-- The versions of one input, with its number. -/
def versions (info : SSTableInfo) (events : List Event) : List EventWithSeq :=
  events.map (⟨·, info.meta_.sequence⟩)

theorem block_scan_collect (sst_seq : Nat) (all : List EventWithSeq) (es : List Event) :
    block_scan minKey maxKey (collect sst_seq) all es = (all ++ es.map (⟨·, sst_seq⟩), true) := by
  induction es generalizing all with
  | nil => rw [block_scan, List.map_nil, List.append_nil]
  | cons e es ih =>
      have h := ih (all ++ [⟨e, sst_seq⟩])
      rw [List.append_assoc, List.singleton_append] at h
      rw [block_scan, if_neg (not_lt.mpr (minKey_le e.key)), if_neg (not_lt.mpr (le_maxKey e.key))]
      exact h

/-- A finished file is read whole. -/
theorem read_input_ok {ssts : SSTableDir} {info : SSTableInfo} {t : SSTable}
    (h : ssts.lookup info.path = some (.finished t)) (all : List EventWithSeq) :
    read_input ssts all info = .ok (all ++ versions info t.events) := by
  have hrange : ¬ (maxKey < t.meta_.min_key ∨ t.meta_.max_key < minKey) :=
    not_or.mpr ⟨not_lt.mpr (le_maxKey _), not_lt.mpr (minKey_le _)⟩
  rw [read_input, h]
  simp only [SSTableFile.read_meta, SSTableFile.scan, if_neg hrange, block_scan_collect]
  rfl

theorem read_inputs_ok {ssts : SSTableDir} {inputs : List SSTableInfo}
    (h : ∀ info ∈ inputs, ∃ t, ssts.lookup info.path = some (.finished t))
    (all : List EventWithSeq) :
    read_inputs ssts all inputs =
      .ok (all ++ inputs.flatMap fun info => versions info (fileEvents ssts info)) := by
  induction inputs generalizing all with
  | nil => rw [read_inputs, List.flatMap_nil, List.append_nil]
  | cons info inputs ih =>
      obtain ⟨t, ht⟩ := h info List.mem_cons_self
      have hevents : fileEvents ssts info = t.events := fileEvents_finished ht
      rw [read_inputs, read_input_ok ht]
      simp only []
      rw [ih fun i hi => h i (List.mem_cons_of_mem _ hi), List.flatMap_cons, hevents,
        List.append_assoc]

/-! ## Merging -/

theorem dedup_eq_firsts (prev : Option Key) (l : List EventWithSeq) :
    dedup prev l = NewestWins.firsts (fun ew : EventWithSeq => ew.e.key) prev l := by
  induction l generalizing prev with
  | nil => rfl
  | cons ew l ih => rw [dedup, NewestWins.firsts, ih, ih]

/-- The sort and the dedup pass together are the newest-wins merge. -/
theorem dedup_eq_merge (all : List EventWithSeq) :
    dedup none (all.insertionSort merge_le) =
      NewestWins.merge (fun ew : EventWithSeq => ew.e.key) EventWithSeq.sst_seq all :=
  dedup_eq_firsts none _

theorem merge_low {target_level : Nat} (h : target_level < kMaxLevels - 1)
    (all : List EventWithSeq) :
    merge target_level all =
      (NewestWins.merge (fun ew : EventWithSeq => ew.e.key) EventWithSeq.sst_seq all).map
        EventWithSeq.e := by
  rw [merge, if_neg (by omega), dedup_eq_merge]

theorem merge_sorted (target_level : Nat) (all : List EventWithSeq) :
    Keyed.Sorted Event.key (merge target_level all) := by
  have hsorted : Keyed.Sorted Event.key
      ((dedup none (all.insertionSort merge_le)).map EventWithSeq.e) := by
    rw [dedup_eq_merge]
    exact List.pairwise_map.mpr (NewestWins.merge_sorted all)
  rw [merge]
  split
  · exact hsorted.filter _
  · exact hsorted

/-- The merge has one event for each distinct key. -/
theorem merge_length (files : List SSTableInfo) (events : SSTableInfo → List Event) :
    (merge 1 (files.flatMap fun info => versions info (events info))).length =
      ((files.flatMap events).map Event.key).dedup.length := by
  have hkeys : ((merge 1 (files.flatMap fun info => versions info (events info))).map
      Event.key).Perm ((files.flatMap events).map Event.key).dedup := by
    refine (List.perm_ext_iff_of_nodup ?_ (List.nodup_dedup _)).mpr fun k => ?_
    · exact List.pairwise_map.mpr ((merge_sorted 1 _).imp fun hlt => ne_of_lt hlt)
    rw [List.mem_dedup, merge_low (by decide), List.mem_map, List.mem_map]
    constructor
    · rintro ⟨e, he, rfl⟩
      obtain ⟨ew, hew, rfl⟩ := List.mem_map.mp he
      obtain ⟨i, hi, hew⟩ := List.mem_flatMap.mp (NewestWins.mem_of_mem_merge hew)
      obtain ⟨e, hmem, rfl⟩ := List.mem_map.mp hew
      exact ⟨e, List.mem_flatMap.mpr ⟨i, hi, hmem⟩, rfl⟩
    · rintro ⟨e, he, rfl⟩
      obtain ⟨i, hi, he⟩ := List.mem_flatMap.mp he
      have hmem : (⟨e, i.meta_.sequence⟩ : EventWithSeq) ∈
          files.flatMap fun info => versions info (events info) :=
        List.mem_flatMap.mpr ⟨i, hi, List.mem_map.mpr ⟨e, he, rfl⟩⟩
      obtain ⟨y, hy, hkey⟩ : ∃ y ∈ NewestWins.merge (fun ew : EventWithSeq => ew.e.key)
          EventWithSeq.sst_seq (files.flatMap fun info => versions info (events info)),
          y.e.key = e.key := NewestWins.exists_mem_merge hmem
      exact ⟨y.e, List.mem_map.mpr ⟨y, hy, rfl⟩, hkey⟩
  have hlen := hkeys.length_eq
  rwa [List.length_map] at hlen

/-! ## Writing -/

/-- How many records a file takes before it is closed: the check is made at
every thousandth, and a thousand records are estimated at 68250 bytes. -/
def fileRecords (target_file_bytes : Nat) : Nat :=
  1000 * max 1 ((target_file_bytes + 68249) / 68250)

theorem fileRecords_pos (target_file_bytes : Nat) : 0 < fileRecords target_file_bytes := by
  rw [fileRecords]
  omega

/-- The rotation test, at a record count up to the first that passes it. -/
theorem rotates_iff {target_file_bytes n : Nat} (hpos : 0 < n)
    (hle : n ≤ fileRecords target_file_bytes) :
    (n % 1000 = 0 ∧ target_file_bytes ≤ n * Event.kEncodedSize * 105 / 100) ↔
      n = fileRecords target_file_bytes := by
  rw [fileRecords] at hle ⊢
  simp only [Event.kEncodedSize]
  constructor
  · rintro ⟨hmod, hbytes⟩
    omega
  · intro h
    refine ⟨by omega, ?_⟩
    omega

/-- The files closed so far are full and numbered from `sequence`; the open one
is not full; together they hold what was written. -/
structure Written (level sequence target : Nat) (events : List Event) (w : Writing) :
    Prop where
  full : ∃ chunks : List (List Event),
    w.outputs = (chunks.zipIdx sequence).map (fun p => SSTable.write level p.2 p.1) ∧
    (∀ c ∈ chunks, c.length = fileRecords target) ∧
    (match w.writer with
      | none => chunks.flatten = events ∧ w.out_seq = sequence + chunks.length ∧
          w.records_out = 0
      | some (seq, part) => chunks.flatten ++ part = events ∧ seq = sequence + chunks.length ∧
          w.out_seq = seq + 1 ∧ w.records_out = part.length ∧ part ≠ [] ∧
          part.length < fileRecords target)

theorem write_event_written {level sequence target : Nat} {events : List Event} {w : Writing}
    (h : Written level sequence target events w) (e : Event) :
    Written level sequence target (events ++ [e]) (write_event level target w e) := by
  obtain ⟨chunks, houts, hfull, hopen⟩ := h.full
  have hpos := fileRecords_pos target
  -- the open file, fresh or not, with the new event
  obtain ⟨part, hlen, hevents, hpart, hwrite⟩ : ∃ part : List Event,
      part.length < fileRecords target ∧ chunks.flatten ++ part = events ∧
        w.records_out = part.length ∧
        write_event level target w e =
          if (part ++ [e]).length % 1000 = 0 ∧
              target ≤ (part ++ [e]).length * Event.kEncodedSize * 105 / 100 then
            { outputs := w.outputs ++
                [SSTable.write level (sequence + chunks.length) (part ++ [e])]
              writer := none
              out_seq := sequence + chunks.length + 1
              records_out := 0 }
          else
            { outputs := w.outputs
              writer := some (sequence + chunks.length, part ++ [e])
              out_seq := sequence + chunks.length + 1
              records_out := (part ++ [e]).length } := by
    cases hw : w.writer with
    | none =>
        rw [hw] at hopen
        obtain ⟨hflat, hseq, hrec⟩ := hopen
        refine ⟨[], hpos, by rw [List.append_nil, hflat], hrec, ?_⟩
        rw [write_event, hw, hrec, hseq]
        rfl
    | some sp =>
        obtain ⟨seq, part⟩ := sp
        rw [hw] at hopen
        obtain ⟨hflat, hseq, hout, hrec, -, hlt⟩ := hopen
        refine ⟨part, hlt, hflat, hrec, ?_⟩
        rw [write_event, hw, hrec, hout, hseq]
        simp only [List.length_append, List.length_singleton]
  have hcount : (part ++ [e]).length ≤ fileRecords target := by
    rw [List.length_append, List.length_singleton]
    exact hlen
  have hrot := rotates_iff (n := (part ++ [e]).length)
    (by rw [List.length_append, List.length_singleton]; omega) hcount
  rw [hwrite]
  split
  · next hfullnow =>
      refine ⟨chunks ++ [part ++ [e]], ?_, ?_, ?_, ?_, rfl⟩
      · simp only [houts, List.zipIdx_append, List.map_append, List.zipIdx_singleton,
          List.map_cons, List.map_nil]
      · intro c hc
        rcases List.mem_append.mp hc with hc | hc
        · exact hfull c hc
        · rw [List.mem_singleton.mp hc]
          exact hrot.mp hfullnow
      · rw [List.flatten_append, List.flatten_singleton, ← List.append_assoc, hevents]
      · rw [List.length_append, List.length_singleton, ← Nat.add_assoc]
  · next hroom =>
      refine ⟨chunks, houts, hfull, ?_, rfl, rfl, rfl, ?_, ?_⟩
      · rw [← List.append_assoc, hevents]
      · exact List.append_ne_nil_of_right_ne_nil _ (List.cons_ne_nil _ _)
      · exact Nat.lt_of_le_of_ne hcount fun heq => hroom (hrot.mpr heq)

theorem foldl_written {level sequence target : Nat} (events : List Event) :
    ∀ (done : List Event) (w : Writing), Written level sequence target done w →
      Written level sequence target (done ++ events)
        (events.foldl (write_event level target) w) := by
  induction events with
  | nil => intro done w h; rw [List.append_nil]; exact h
  | cons e es ih =>
      intro done w h
      rw [List.append_cons]
      exact ih _ _ (write_event_written h e)

/-- The outputs are consecutive pieces of the merge, none of them empty, numbered
from `sequence`. -/
theorem write_outputs_chunks (level sequence target : Nat) (events : List Event) :
    ∃ chunks : List (List Event),
      write_outputs level sequence target events =
        (chunks.zipIdx sequence).map (fun p => SSTable.write level p.2 p.1) ∧
      chunks.flatten = events ∧ (∀ c ∈ chunks, c ≠ []) ∧
      chunks.length = (events.length + fileRecords target - 1) / fileRecords target := by
  have hpos := fileRecords_pos target
  have hstart : Written level sequence target [] ⟨[], none, sequence, 0⟩ :=
    ⟨[], rfl, fun c hc => absurd hc List.not_mem_nil, rfl, rfl, rfl⟩
  obtain ⟨chunks, houts, hfull, hopen⟩ := (foldl_written events [] _ hstart).full
  rw [List.nil_append] at hopen
  have hne : ∀ c ∈ chunks, c ≠ [] := fun c hc hnil => by
    have hlen := hfull c hc
    rw [hnil] at hlen
    exact absurd hlen (Nat.ne_of_lt hpos)
  have hlen : chunks.flatten.length = chunks.length * fileRecords target :=
    Blocks.length_flatten hfull
  rw [write_outputs, finish]
  cases hw : (events.foldl (write_event level target) ⟨[], none, sequence, 0⟩).writer with
  | none =>
      rw [hw] at hopen
      obtain ⟨hflat, -, -⟩ := hopen
      refine ⟨chunks, houts, hflat, hne, ?_⟩
      rw [← hflat, hlen, Nat.add_sub_assoc hpos, Nat.mul_comm, Nat.mul_add_div hpos,
        Nat.div_eq_of_lt (Nat.sub_lt hpos Nat.one_pos), Nat.add_zero]
  | some sp =>
      obtain ⟨seq, part⟩ := sp
      rw [hw] at hopen
      obtain ⟨hflat, hseq, -, -, hpart, hlt⟩ := hopen
      refine ⟨chunks ++ [part], ?_, ?_, ?_, ?_⟩
      · simp only [houts, hseq, List.zipIdx_append, List.map_append, List.zipIdx_singleton,
          List.map_cons, List.map_nil]
      · rw [List.flatten_append, List.flatten_singleton, hflat]
      · intro c hc
        rcases List.mem_append.mp hc with hc | hc
        · exact hne c hc
        · rw [List.mem_singleton.mp hc]
          exact hpart
      · have hpart' := List.length_pos_iff.mpr hpart
        rw [← hflat, List.length_append, List.length_append, hlen, List.length_singleton,
          Nat.add_assoc, Nat.add_sub_assoc (by omega), Nat.mul_comm, Nat.mul_add_div hpos]
        congr 1
        rw [show part.length + fileRecords target - 1 =
          fileRecords target * 1 + (part.length - 1) by omega, Nat.mul_add_div hpos,
          Nat.div_eq_of_lt (by omega)]

end Compaction

end Kronos
