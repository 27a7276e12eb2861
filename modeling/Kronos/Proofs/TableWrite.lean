import Kronos.Proofs.BloomFilter
import Kronos.Spec.RoundTrip

/-!
# What a writer writes

A writer that has been given some events has written the blocks before the
last one, has an index entry for each of them and the last one in its builder;
the filter has every key, and the keys of the meta block are those of the first
and the last event. This is kept by `add`, and `finish` lays the rest of the
file behind the blocks.
-/

namespace Kronos

open Spec

/-! ## Blocks -/

theorem blockBytes_length {block : List Event} (h : block ≠ []) :
    (blockBytes block).length = BlockBuilder.encodedSize block.length :=
  BlockBuilder.finish_length (b := ⟨0, block⟩) h

theorem place_refused {target : Nat} {done : List (List Event)} {block : List Event} {e : Event}
    (h : (BlockBuilder.add e ⟨target, block⟩).1 = false) :
    place target (done ++ [block]) e = done ++ [block] ++ [[e]] := by
  rw [place, List.getLast?_concat]
  simp only [h, Bool.false_eq_true, if_false]

theorem place_taken {target : Nat} {done : List (List Event)} {block : List Event} {e : Event}
    (h : (BlockBuilder.add e ⟨target, block⟩).1 = true) :
    place target (done ++ [block]) e = done ++ [block ++ [e]] := by
  rw [place, List.getLast?_concat]
  simp only [h, if_true, List.dropLast_concat]

/-- A block that takes another event stays below the target. -/
theorem BlockBuilder.add_taken {target : Nat} {block : List Event} {e : Event}
    (h : (BlockBuilder.add e ⟨target, block⟩).1 = true) (hne : block ≠ []) :
    encodedSize (block ++ [e]).length ≤ target := by
  rw [add] at h
  split at h
  · cases h
  · next hroom =>
      have hle := not_lt.mp fun hlt => hroom ⟨hne, hlt⟩
      rw [List.length_append, List.length_singleton]
      simp only [encodedSize, Nat.succ_mul] at hle ⊢
      omega

/-- What the blocks of a writer are. -/
structure Cut (target : Nat) (events : List Event) (blocks : List (List Event)) : Prop where
  flatten : blocks.flatten = events
  nonempty : ∀ b ∈ blocks, b ≠ []
  small : ∀ b ∈ blocks, 1 < b.length → (blockBytes b).length ≤ target

theorem cut_place {target : Nat} {events : List Event} {blocks : List (List Event)}
    (h : Cut target events blocks) (e : Event) :
    Cut target (events ++ [e]) (place target blocks e) := by
  have hsingle : ([e] : List Event) ≠ [] ∧
      (1 < ([e] : List Event).length → (blockBytes [e]).length ≤ target) := by simp
  rcases List.eq_nil_or_concat' blocks with rfl | ⟨done, block, rfl⟩
  · have hnil : events = [] := h.flatten.symm
    have hplace : place target [] e = [[e]] := rfl
    rw [hplace, hnil]
    refine ⟨rfl, fun b hb => ?_, fun b hb => ?_⟩
    · rw [List.mem_singleton.mp hb]
      exact hsingle.1
    · rw [List.mem_singleton.mp hb]
      exact hsingle.2
  · have hflat := h.flatten
    rw [List.flatten_append, List.flatten_singleton] at hflat
    have hne := h.nonempty block (List.mem_append_right _ (List.mem_singleton.mpr rfl))
    cases htake : (BlockBuilder.add e ⟨target, block⟩).1 with
    | false =>
        rw [place_refused htake]
        refine ⟨?_, fun b hb => ?_, fun b hb => ?_⟩
        · rw [List.flatten_append, List.flatten_append, List.flatten_singleton,
            List.flatten_singleton, hflat]
        · rcases List.mem_append.mp hb with hb | hb
          · exact h.nonempty b hb
          · rw [List.mem_singleton.mp hb]
            exact hsingle.1
        · rcases List.mem_append.mp hb with hb | hb
          · exact h.small b hb
          · rw [List.mem_singleton.mp hb]
            exact hsingle.2
    | true =>
        rw [place_taken htake]
        refine ⟨?_, fun b hb => ?_, fun b hb => ?_⟩
        · rw [List.flatten_append, List.flatten_singleton, ← List.append_assoc, hflat]
        · rcases List.mem_append.mp hb with hb | hb
          · exact h.nonempty b (List.mem_append_left _ hb)
          · rw [List.mem_singleton.mp hb]
            simp
        · rcases List.mem_append.mp hb with hb | hb
          · exact h.small b (List.mem_append_left _ hb)
          · rw [List.mem_singleton.mp hb]
            intro _
            rw [blockBytes_length (by simp)]
            exact BlockBuilder.add_taken htake hne

theorem blocksOf_cut (target : Nat) (events : List Event) :
    Cut target events (blocksOf target events) := by
  induction events using List.reverseRecOn with
  | nil => exact ⟨rfl, fun b hb => (by cases hb), fun b hb => (by cases hb)⟩
  | append_singleton es e ih =>
      rw [blocksOf, List.foldl_append]
      exact cut_place ih e

/-! ## The index entries of blocks -/

/-- The key a block starts with. -/
def firstKey (block : List Event) : Key := (block.head?.map Event.key).getD ⟨0, 0, 0⟩

/-- The entries of blocks that lie one after the other. -/
def entriesAt : Nat → List (List Event) → List IndexEntry
  | _, [] => []
  | offset, block :: blocks =>
      ⟨firstKey block, .ofNat offset, .ofNat (blockBytes block).length⟩ ::
        entriesAt (offset + (blockBytes block).length) blocks

theorem entriesAt_append (offset : Nat) (l r : List (List Event)) :
    entriesAt offset (l ++ r) =
      entriesAt offset l ++ entriesAt (offset + (l.flatMap blockBytes).length) r := by
  induction l generalizing offset with
  | nil => rfl
  | cons block l ih =>
      rw [List.cons_append, entriesAt, entriesAt, ih, List.flatMap_cons, List.length_append,
        Nat.add_assoc, List.cons_append]

theorem entriesAt_length (offset : Nat) (blocks : List (List Event)) :
    (entriesAt offset blocks).length = blocks.length := by
  induction blocks generalizing offset with
  | nil => rfl
  | cons block blocks ih => rw [entriesAt, List.length_cons, ih, List.length_cons]

/-! ## Adding -/

namespace SSTableWriter

/-- A writer on its way: the blocks it has written and the one it fills. -/
structure Filling (level sequence target : Nat) (w : SSTableWriter) (events : List Event)
    (done : List (List Event)) : Prop where
  level : w.level = level
  sequence : w.sequence = sequence
  target_bytes : w.builder.target_bytes = target
  blocks : blocksOf target events =
    done ++ if w.builder.events = [] then [] else [w.builder.events]
  started : w.builder.events = [] → events = []
  file : w.file = done.flatMap blockBytes
  index : w.index.entries = entriesAt 0 done
  addressed : w.filter.Addressed
  keys : ∀ e ∈ events, w.filter.may_contain e.key.encode = true
  count : w.event_count = events.length
  min_key : w.min_key = firstKey events
  max_key : w.max_key = (events.getLast?.map Event.key).getD ⟨0, 0, 0⟩
  has_any : w.has_any = true ↔ events ≠ []

variable {level sequence target : Nat} {w : SSTableWriter} {events : List Event} {done : List (List Event)}

theorem new_filling (level sequence target : Nat) {filter : BloomFilter}
    (h : filter.Addressed) :
    Filling level sequence target (new level sequence target filter) [] [] where
  level := rfl
  sequence := rfl
  target_bytes := rfl
  blocks := rfl
  started _ := rfl
  file := rfl
  index := rfl
  addressed := h
  keys e he := by cases he
  count := rfl
  min_key := rfl
  max_key := rfl
  has_any := by simp [new]

/-- Writing the block out. -/
theorem flush_block_eq (w : SSTableWriter) (hne : w.builder.events ≠ []) :
    w.flush_block = { w with
      file := w.file ++ blockBytes w.builder.events
      index := w.index.add (firstKey w.builder.events) (.ofNat w.file.length)
        (.ofNat (blockBytes w.builder.events).length)
      builder := { w.builder with events := [] } } := by
  obtain ⟨front, rest, hevents⟩ := List.exists_cons_of_ne_nil hne
  have hhead : w.builder.events.head? = some front := by rw [hevents]; rfl
  have hfirst : firstKey w.builder.events = front.key := by rw [firstKey, hhead]; rfl
  rw [flush_block, hhead, hfirst]
  rfl

/-- What `add` notes about an event before it is put into a block. -/
def noted (e : Event) (w : SSTableWriter) : SSTableWriter :=
  { w with
    min_key := if w.has_any then w.min_key else e.key
    has_any := true
    max_key := e.key
    event_count := w.event_count + 1
    filter := w.filter.add e.key.encode }

theorem add_taken {e : Event} {builder : BlockBuilder} (h : w.builder.add e = (true, builder)) :
    w.add e = { w.noted e with builder } := by
  rw [add]
  simp only [h]
  rfl

theorem add_refused {e : Event} (h : w.builder.add e = (false, w.builder)) :
    w.add e = { (w.noted e).flush_block with
      builder := ((w.noted e).flush_block.builder.add e).2 } := by
  rw [add]
  simp only [h]
  rfl

theorem add_filling (h : Filling level sequence target w events done) (e : Event) :
    ∃ done', Filling level sequence target (w.add e) (events ++ [e]) done' := by
  obtain ⟨haddressed, hwithin, hfound⟩ := BloomFilter.add_spec h.addressed e.key.encode
  have hkeys : ∀ x ∈ events ++ [e], (w.filter.add e.key.encode).may_contain x.key.encode = true := by
    intro x hx
    rcases List.mem_append.mp hx with hx | hx
    · exact hwithin.may_contain (h.keys x hx)
    · rw [List.mem_singleton.mp hx]
      exact hfound
  have hcount : w.event_count + 1 = (events ++ [e]).length := by
    rw [h.count, List.length_append, List.length_singleton]
  have hmin : (if w.has_any then w.min_key else e.key) = firstKey (events ++ [e]) := by
    cases events with
    | nil =>
        rw [if_neg fun hany => (h.has_any.mp hany) rfl]
        rfl
    | cons x xs =>
        rw [if_pos (h.has_any.mpr (List.cons_ne_nil x xs)), h.min_key]
        rfl
  have hmax : e.key = ((events ++ [e]).getLast?.map Event.key).getD ⟨0, 0, 0⟩ := by
    rw [List.getLast?_concat]
    rfl
  have hany : true = true ↔ events ++ [e] ≠ [] := by simp
  have hplaced : blocksOf target (events ++ [e]) = place target (blocksOf target events) e := by
    rw [blocksOf, List.foldl_append]
    rfl
  have hblocks := h.blocks
  have hsame : w.builder = ⟨target, w.builder.events⟩ := by rw [← h.target_bytes]
  by_cases hnil : w.builder.events = []
  · have hstart := h.started hnil
    have hadd : w.builder.add e = (true, { w.builder with events := [e] }) := by
      rw [BlockBuilder.add, hnil, if_neg fun hno => hno.1 rfl]
      rfl
    rw [if_pos hnil, List.append_nil] at hblocks
    have hdone : done = [] := by
      rw [← hblocks, hstart]
      rfl
    have hfile : w.file = ([] : List (List Event)).flatMap blockBytes := hdone ▸ h.file
    have hindex : w.index.entries = entriesAt 0 [] := hdone ▸ h.index
    refine ⟨[], ?_⟩
    rw [add_taken hadd]
    refine ⟨h.level, h.sequence, h.target_bytes, ?_, fun hno => (by cases hno), hfile, hindex, haddressed, hkeys, hcount,
      hmin, hmax, hany⟩
    rw [hstart, if_neg (List.cons_ne_nil e [])]
    rfl
  · rw [if_neg hnil] at hblocks
    have hstay : ∀ block : List Event, block ≠ [] → (if block = [] then [] else [block]) = [block] :=
      fun block hne => if_neg hne
    cases htake : (w.builder.add e).1 with
    | true =>
        have hadd : w.builder.add e =
            (true, { w.builder with events := w.builder.events ++ [e] }) := by
          rw [BlockBuilder.add] at htake ⊢
          split at htake
          · cases htake
          · next hroom => rw [if_neg hroom]
        refine ⟨done, ?_⟩
        rw [add_taken hadd]
        refine ⟨h.level, h.sequence, h.target_bytes, ?_, fun hno => ?_, h.file, h.index, haddressed, hkeys, hcount,
          hmin, hmax, hany⟩
        · rw [hsame] at htake
          rw [hplaced, hblocks, place_taken htake]
          exact congrArg (done ++ ·) (hstay _ (by simp)).symm
        · exact absurd hno (by simp)
    | false =>
        have hadd : w.builder.add e = (false, w.builder) := by
          rw [BlockBuilder.add] at htake ⊢
          split at htake
          · next hfull => rw [if_pos hfull]
          · cases htake
        have hfile : w.file ++ blockBytes w.builder.events =
            (done ++ [w.builder.events]).flatMap blockBytes := by
          rw [List.flatMap_append, List.flatMap_singleton, h.file]
        have hindex : (w.index.add (firstKey w.builder.events) (.ofNat w.file.length)
            (.ofNat (blockBytes w.builder.events).length)).entries =
              entriesAt 0 (done ++ [w.builder.events]) := by
          rw [entriesAt_append, Nat.zero_add, ← h.file, ← h.index]
          rfl
        refine ⟨done ++ [w.builder.events], ?_⟩
        rw [add_refused hadd, flush_block_eq (w.noted e) hnil]
        refine ⟨h.level, h.sequence, h.target_bytes, ?_, fun hno => (by cases hno), hfile, hindex, haddressed, hkeys,
          hcount, hmin, hmax, hany⟩
        rw [hsame] at htake
        rw [hplaced, hblocks, place_refused htake]
        rfl

theorem adds_filling (level sequence target : Nat) {filter : BloomFilter}
    (h : filter.Addressed) (events : List Event) :
    ∃ done, Filling level sequence target
      (events.foldl (fun w e => w.add e) (new level sequence target filter)) events done := by
  induction events using List.reverseRecOn with
  | nil => exact ⟨[], new_filling level sequence target h⟩
  | append_singleton es e ih =>
      obtain ⟨done, h⟩ := ih
      rw [List.foldl_append]
      exact add_filling h e

/-! ## Finishing -/

/-- The parts of a file, and the footer that says where they are. -/
def layout (data filter_data idx_data meta_data : Bytes) : Bytes :=
  let idx_off := data.length + filter_data.length
  let meta_off := idx_off + idx_data.length
  data ++ (filter_data ++ (idx_data ++ (meta_data ++
    footer data.length filter_data.length idx_off idx_data.length meta_off meta_data.length)))

/-- The meta block of a table, as it is stored. -/
def storedMeta (level sequence : Nat) (events : List Event) (data_bytes : Nat) : StoredMeta :=
  { (SSTable.write level sequence events).meta_ with data_bytes }

/-- After the last block is written. -/
theorem flush_block_filling (h : Filling level sequence target w events done) :
    w.flush_block.file = (blocksOf target events).flatMap blockBytes ∧
      w.flush_block.index.entries = entriesAt 0 (blocksOf target events) := by
  have hblocks := h.blocks
  by_cases hnil : w.builder.events = []
  · have hself : w.flush_block = w := by rw [flush_block, hnil]; rfl
    rw [if_pos hnil, List.append_nil] at hblocks
    rw [hself, hblocks]
    exact ⟨h.file, h.index⟩
  · rw [if_neg hnil] at hblocks
    rw [flush_block_eq w hnil, hblocks]
    constructor
    · rw [List.flatMap_append, List.flatMap_singleton, ← h.file]
    · rw [entriesAt_append, Nat.zero_add, ← h.file, ← h.index]
      rfl

theorem flush_block_rest (w : SSTableWriter) :
    w.flush_block.level = w.level ∧ w.flush_block.sequence = w.sequence ∧
      w.flush_block.filter = w.filter ∧ w.flush_block.event_count = w.event_count ∧
      w.flush_block.min_key = w.min_key ∧ w.flush_block.max_key = w.max_key := by
  rw [flush_block]
  split <;> exact ⟨rfl, rfl, rfl, rfl, rfl, rfl⟩

/-- The file of a writer that was given the events. -/
theorem write_layout (level sequence target : Nat) {filter : BloomFilter}
    (haddressed : filter.Addressed) (events : List Event) :
    ∃ filled : BloomFilter, filled.Addressed ∧
      (∀ e ∈ events, filled.may_contain e.key.encode = true) ∧
      write level sequence target filter events =
        (layout ((blocksOf target events).flatMap blockBytes) filled.encode
          (IndexBlock.encode ⟨entriesAt 0 (blocksOf target events)⟩)
          (encode_meta (storedMeta level sequence events
            ((blocksOf target events).flatMap blockBytes).length)),
        storedMeta level sequence events ((blocksOf target events).flatMap blockBytes).length) := by
  obtain ⟨done, h⟩ := adds_filling level sequence target haddressed events
  rw [write]
  generalize events.foldl (fun w e => w.add e) (new level sequence target filter) = w at h
  obtain ⟨hfile, hindex⟩ := flush_block_filling h
  obtain ⟨hlevel, hsequence, hfilter, hcount, hmin, hmax⟩ := flush_block_rest w
  refine ⟨w.filter, h.addressed, h.keys, ?_⟩
  have hentries : w.flush_block.index = ⟨entriesAt 0 (blocksOf target events)⟩ := by
    rw [← hindex]
  have hmeta : ∀ n, ({ event_count := w.flush_block.event_count
                       data_bytes := n
                       min_key := w.flush_block.min_key
                       max_key := w.flush_block.max_key
                       level := w.flush_block.level
                       sequence := w.flush_block.sequence } : StoredMeta) =
      storedMeta level sequence events n := by
    intro n
    rw [hcount, hmin, hmax, hlevel, hsequence, h.count, h.min_key, h.max_key, h.level, h.sequence]
    rfl
  rw [finish]
  simp only [write_bytes, hmeta, hfile, hentries, hfilter, layout, List.length_append,
    List.append_assoc, Nat.add_assoc]

end SSTableWriter

end Kronos
