import Kronos.Proofs.WalFormat
import Kronos.Spec.WalLog

/-!
# What a well-kept log directory looks like

Segments are numbered from one without a gap. All but the last are whole
records, and so is the last up to a tail that no record starts in. That shape
is `WalHolds`, and reading a directory of that shape gives back exactly the
events it was laid out from, each at its offset: the only segment that can be
torn is the last, and its clean end is where its tail begins.

The writer's moves are moves between such shapes: opening, appending,
rotating, cutting the tail off.
-/

namespace Kronos

open Framing Spec

/-- A segment of whole records. -/
def recs (es : List Event) : Bytes := es.flatMap wal_record

theorem recs_length (es : List Event) : (recs es).length = recordSize * es.length := by
  induction es with
  | nil => rfl
  | cons e es ih =>
      rw [recs, List.flatMap_cons, List.length_append, wal_record_length, ← recs, ih,
        List.length_cons, Nat.mul_succ, Nat.add_comm]
      rfl

theorem recs_append (as bs : List Event) : recs (as ++ bs) = recs as ++ recs bs :=
  List.flatMap_append ..

theorem recs_singleton (e : Event) : recs [e] = wal_record e := by
  rw [recs, List.flatMap_cons, List.flatMap_nil, List.append_nil]

/-! ## Reading one segment -/

/-- The entries of a segment that holds these events. -/
def entriesOf (id : Nat) (es : List Event) : List LogEntry :=
  es.zipIdx.map fun p => ⟨p.1, id, recordSize * p.2⟩

theorem walFormat_parse_nil : walFormat.parse [] = none := walFormat_parse_short (by decide)

theorem walRecords_placed (id off : Nat) (es : List Event) :
    walRecords (Format.placed wal_record some (recordSize * off) es) =
      (es.zipIdx off).map fun p => LogEntry.record ⟨p.1, id, recordSize * p.2⟩ := by
  have hk : ∀ e, (wal_record e).length = recordSize := wal_record_length
  rw [Format.placed_eq_zipIdx hk, walRecords, List.filterMap_map]
  exact congrFun List.filterMap_eq_map _

theorem read_segment_recs (id : Nat) (es : List Event) {tail : Bytes}
    (htail : walFormat.parse tail = none) :
    (read_segment (recs es ++ tail)).records = (entriesOf id es).map LogEntry.record ∧
      (read_segment (recs es ++ tail)).clean_end = recordSize * es.length ∧
      ((read_segment (recs es ++ tail)).torn = true ↔ tail ≠ []) := by
  obtain ⟨hscan, hclean⟩ := Format.scan_records htail (fun e _ => walFormat_wal_record e) 0
  rw [← recs] at hscan hclean
  refine ⟨?_, ?_, ?_⟩
  · rw [read_segment_records, hscan, entriesOf, List.map_map]
    exact walRecords_placed id 0 es
  · rw [read_segment_clean_end, hclean, recs_length]
  · rw [read_segment_torn, hclean, List.length_append]
    cases tail with
    | nil => simp
    | cons b bs => simp

/-! ## Reading a directory -/

/-- What `read_all` takes from one number. -/
def segmentRecords (dir : WalDir) (id : Nat) : List WALRecord :=
  match dir.lookup id with
  | none => []
  | some file => (read_segment file).records

def segmentTorn (dir : WalDir) (id : Nat) : Bool :=
  match dir.lookup id with
  | none => false
  | some file => (read_segment file).torn

theorem foldl_read_next (dir : WalDir) (ids : List Nat) (r : ReadAll) :
    (ids.foldl (read_next dir) r).records = r.records ++ ids.flatMap (segmentRecords dir) ∧
      (ids.foldl (read_next dir) r).torn = (r.torn || ids.any (segmentTorn dir)) := by
  induction ids generalizing r with
  | nil => simp
  | cons id ids ih =>
      obtain ⟨h1, h2⟩ := ih (read_next dir r id)
      rw [List.foldl_cons, h1, h2, List.flatMap_cons, List.any_cons]
      rw [read_next, segmentRecords, segmentTorn]
      cases dir.lookup id with
      | none => simp
      | some file => simp [Bool.or_assoc]

theorem foldl_max_le {l : List Nat} {a n : Nat} (ha : a ≤ n) (h : ∀ x ∈ l, x ≤ n) :
    l.foldl max a ≤ n := by
  induction l generalizing a with
  | nil => exact ha
  | cons x xs ih =>
      exact ih (Nat.max_le.mpr ⟨ha, h x (by simp)⟩) fun y hy => h y (by simp [hy])

theorem le_foldl_max (l : List Nat) (a : Nat) :
    a ≤ l.foldl max a ∧ ∀ x ∈ l, x ≤ l.foldl max a := by
  induction l generalizing a with
  | nil => exact ⟨Nat.le_refl _, fun x hx => by cases hx⟩
  | cons y ys ih =>
      obtain ⟨h1, h2⟩ := ih (max a y)
      refine ⟨Nat.le_trans (Nat.le_max_left a y) h1, fun x hx => ?_⟩
      rcases List.mem_cons.mp hx with rfl | hx
      · exact Nat.le_trans (Nat.le_max_right a x) h1
      · exact h2 x hx

/-! ## The shape -/

/-- Whole segments `init` under the numbers from one, then the last segment:
whole records, then a tail. -/
def WalHolds (dir : WalDir) (init : List (List Event)) (last : List Event) (tail : Bytes) :
    Prop :=
  ∀ id, dir.lookup id =
    if id = init.length + 1 then some (recs last ++ tail)
    else if id = 0 then none else (init[id - 1]?).map recs

/-- The log a shape stands for. -/
def logOf (init : List (List Event)) (last : List Event) : List LogEntry :=
  (init.zipIdx 1).flatMap (fun p => entriesOf p.2 p.1) ++ entriesOf (init.length + 1) last

namespace WalHolds

variable {dir : WalDir} {init : List (List Event)} {last : List Event} {tail : Bytes}

theorem lookup_last (h : WalHolds dir init last tail) :
    dir.lookup (init.length + 1) = some (recs last ++ tail) := by
  rw [h, if_pos rfl]

theorem contents_last (h : WalHolds dir init last tail) :
    dir.contents (init.length + 1) = recs last ++ tail := by
  rw [WalDir.contents, h.lookup_last]
  rfl

theorem contents_next (h : WalHolds dir init last tail) :
    dir.contents (init.length + 2) = [] := by
  rw [WalDir.contents, h, if_neg (by omega), if_neg (by omega),
    List.getElem?_eq_none (by omega)]
  rfl

theorem lookup_init (h : WalHolds dir init last tail) {i : Nat} {es : List Event}
    (hi : init[i]? = some es) : dir.lookup (i + 1) = some (recs es) := by
  have hlt : i < init.length := (List.getElem?_eq_some_iff.mp hi).1
  rw [h, if_neg (by omega), if_neg (by omega), Nat.add_sub_cancel, hi]
  rfl

theorem max_segment_id (h : WalHolds dir init last tail) :
    dir.max_segment_id = init.length + 1 := by
  have hmem : ∀ id, id ∈ dir.keys ↔ (dir.lookup id).isSome := fun id => by
    rw [AList.lookup_isSome, AList.mem_keys]
  apply Nat.le_antisymm
  · refine foldl_max_le (Nat.zero_le _) fun id hid => ?_
    rw [hmem, h] at hid
    by_contra hgt
    rw [if_neg (by omega), if_neg (by omega), List.getElem?_eq_none (by omega)] at hid
    cases hid
  · refine (le_foldl_max dir.keys 0).2 _ ?_
    rw [hmem, h.lookup_last]
    rfl

theorem set_last (h : WalHolds dir init last tail) (last' : List Event) (tail' : Bytes) :
    WalHolds (dir.insert (init.length + 1) (recs last' ++ tail')) init last' tail' := by
  intro id
  by_cases hid : id = init.length + 1
  · subst hid
    rw [AList.lookup_insert, if_pos rfl]
  · rw [AList.lookup_insert_ne hid, h id, if_neg hid, if_neg hid]

/-- A new segment behind whole ones. -/
theorem next (h : WalHolds dir init last []) :
    WalHolds (dir.insert (init.length + 2) []) (init ++ [last]) [] [] := by
  intro id
  rw [List.length_append, List.length_singleton]
  by_cases hid : id = init.length + 2
  · subst hid
    rw [AList.lookup_insert, if_pos rfl]
    rfl
  · rw [AList.lookup_insert_ne hid, h id, if_neg hid]
    by_cases hlast : id = init.length + 1
    · subst hlast
      rw [if_pos rfl, if_neg (by omega), Nat.add_sub_cancel, List.getElem?_concat_length,
        List.append_nil]
      rfl
    · rw [if_neg hlast]
      by_cases hz : id = 0
      · rw [if_pos hz, if_pos hz]
      · rw [if_neg hz, if_neg hz]
        rcases Nat.lt_or_ge (id - 1) init.length with hlt | hge
        · rw [List.getElem?_append_left hlt]
        · rw [List.getElem?_eq_none hge, List.getElem?_eq_none (by simp; omega)]

theorem segment_ids (h : WalHolds dir init last tail) :
    List.range' 1 dir.max_segment_id =
      List.range' 1 init.length ++ [init.length + 1] := by
  rw [h.max_segment_id, List.range'_concat, Nat.one_mul, Nat.add_comm 1]

/-- The whole segments in front of the last read back whole. -/
theorem read_init (h : WalHolds dir init last tail) (k : Nat) (hk : k ≤ init.length) :
    (List.range' 1 k).flatMap (segmentRecords dir) =
        (((init.take k).zipIdx 1).flatMap fun p => entriesOf p.2 p.1).map LogEntry.record ∧
      (List.range' 1 k).any (segmentTorn dir) = false := by
  induction k with
  | zero => exact ⟨by simp, rfl⟩
  | succ k ih =>
      obtain ⟨ih1, ih2⟩ := ih (by omega)
      have hget : init[k]? = some init[k] := List.getElem?_eq_getElem (by omega)
      obtain ⟨hrec, -, htorn⟩ := read_segment_recs (k + 1) init[k] walFormat_parse_nil
      rw [List.append_nil] at hrec htorn
      have hseg : segmentRecords dir (k + 1) = (entriesOf (k + 1) init[k]).map LogEntry.record := by
        rw [segmentRecords, h.lookup_init hget]
        exact hrec
      have hsegt : segmentTorn dir (k + 1) = false := by
        rw [segmentTorn, h.lookup_init hget]
        exact Bool.eq_false_iff.mpr fun ht => htorn.mp ht rfl
      rw [List.range'_concat, Nat.one_mul, Nat.add_comm 1 k, List.flatMap_append, ih1,
        List.any_append, ih2, List.take_add_one, hget]
      refine ⟨?_, ?_⟩
      · rw [Option.toList_some, List.zipIdx_append, List.flatMap_append, List.map_append,
          List.length_take, Nat.min_eq_left (by omega), List.flatMap_cons, List.flatMap_nil,
          List.append_nil, hseg, List.zipIdx_cons, List.zipIdx_nil, List.flatMap_cons,
          List.flatMap_nil, List.append_nil, Nat.add_comm 1 k]
      · rw [List.any_cons, List.any_nil, hsegt]
        rfl

theorem read_all_records (h : WalHolds dir init last tail)
    (htail : walFormat.parse tail = none) :
    (read_all dir).records = (logOf init last).map LogEntry.record := by
  obtain ⟨hinit, -⟩ := h.read_init init.length (Nat.le_refl _)
  rw [List.take_length] at hinit
  rw [read_all, (foldl_read_next ..).1, List.nil_append, h.segment_ids, List.flatMap_append,
    hinit, logOf, List.map_append, List.flatMap_cons, List.flatMap_nil, List.append_nil,
    segmentRecords, h.lookup_last]
  rw [← (read_segment_recs (init.length + 1) last htail).1]

theorem read_all_torn (h : WalHolds dir init last tail)
    (htail : walFormat.parse tail = none) :
    (read_all dir).torn = true ↔ tail ≠ [] := by
  obtain ⟨-, hinit⟩ := h.read_init init.length (Nat.le_refl _)
  rw [read_all, (foldl_read_next ..).2, Bool.false_or, h.segment_ids, List.any_append, hinit,
    Bool.false_or, List.any_cons, List.any_nil, Bool.or_false, segmentTorn, h.lookup_last]
  exact (read_segment_recs 0 last htail).2.2

theorem read_all_clean_end (h : WalHolds dir init last tail)
    (htail : walFormat.parse tail = none) :
    (read_all dir).clean_end_offset = recordSize * last.length := by
  rw [read_all, h.segment_ids, List.foldl_append, List.foldl_cons, List.foldl_nil, read_next,
    h.lookup_last]
  exact (read_segment_recs 0 last htail).2.1

end WalHolds

end Kronos
