import Mathlib.Data.List.Sort
import Kronos.Ref.SSTable

/-!
# Compaction

`Compaction::run` reads its inputs whole, sorts every version by key with the
version of the largest file number first, keeps the first of each key, drops
tombstones when nothing lies below the target level, and writes what is left
into files that are closed when their estimated size reaches the target.
-/

namespace Kronos

inductive SSTableError where
  /-- "cannot open SSTable: " and what the constructor throws besides -/
  | open_failed (path : SSTablePath)
  /-- a block of the file cannot be read -/
  | read_failed (path : SSTablePath)
  deriving DecidableEq, Repr

structure EventWithSeq where
  e : Event
  /-- used to pick the newest version when keys collide -/
  sst_seq : Nat
  deriving DecidableEq, Repr

structure CompactionStats where
  input_files : Nat
  output_files : Nat
  /-- raw count before dedup -/
  records_in : Nat
  records_out : Nat
  deriving DecidableEq, Repr

namespace Compaction

def kMaxLevels : Nat := 4

/-! ## Phase 1: load all input events -/

/-- The callback of phase 1. -/
def collect (sst_seq : Nat) : Callback (List EventWithSeq) :=
  fun all e => (all ++ [⟨e, sst_seq⟩], true)

def minKey : Key := ⟨0, 0, 0⟩
def maxKey : Key := ⟨0xFFFFFFFF, 0xFFFFFFFFFFFFFFFF, 0xFFFFFFFFFFFFFFFF⟩

def read_input (ssts : SSTableDir) (all : List EventWithSeq) (info : SSTableInfo) :
    Except SSTableError (List EventWithSeq) :=
  match ssts.lookup info.path with
  | none => .error (.open_failed info.path)
  | some file =>
      match file.read_meta with
      | none => .error (.open_failed info.path)
      | some _ =>
          match file.scan minKey maxKey (collect info.meta_.sequence) all with
          | (_, true) => .error (.read_failed info.path)
          | (all, false) => .ok all

def read_inputs (ssts : SSTableDir) :
    List EventWithSeq → List SSTableInfo → Except SSTableError (List EventWithSeq)
  | all, [] => .ok all
  | all, info :: inputs =>
      match read_input ssts all info with
      | .error err => .error err
      | .ok all => read_inputs ssts all inputs

/-! ## Phase 2: sort and deduplicate -/

/-- Not greater in the order of the sort: key ascending, then `sst_seq`
descending. -/
def merge_le (a b : EventWithSeq) : Prop :=
  if a.e.key ≠ b.e.key then a.e.key < b.e.key else b.sst_seq ≤ a.sst_seq

instance : DecidableRel merge_le := fun a b => by unfold merge_le; infer_instance

/-- Keep a version if the one before it has another key. -/
def dedup : Option Key → List EventWithSeq → List EventWithSeq
  | _, [] => []
  | prev, ew :: rest =>
      if prev = some ew.e.key then dedup prev rest
      else ew :: dedup (some ew.e.key) rest

def merge (target_level : Nat) (all : List EventWithSeq) : List Event :=
  let deduped := (dedup none (all.insertionSort merge_le)).map EventWithSeq.e
  if kMaxLevels - 1 ≤ target_level then
    deduped.filter (·.event_type ≠ .Tombstone)
  else deduped

/-! ## Phase 3: write the output tables -/

structure Writing where
  outputs : List SSTable
  /-- number and events of the file that is open -/
  writer : Option (Nat × List Event)
  out_seq : Nat
  /-- records written to the open file -/
  records_out : Nat

def write_event (target_level target_file_bytes : Nat) (w : Writing) (e : Event) : Writing :=
  let (sequence, events, out_seq) := match w.writer with
    | some (sequence, events) => (sequence, events, w.out_seq)
    | none => (w.out_seq, [], w.out_seq + 1)
  let events := events ++ [e]
  let records_out := w.records_out + 1
  -- 65 bytes an event and about 5% of block and index overhead
  if records_out % 1000 = 0 ∧
      target_file_bytes ≤ records_out * Event.kEncodedSize * 105 / 100 then
    { outputs := w.outputs ++ [SSTable.write target_level sequence events]
      writer := none
      out_seq
      records_out := 0 }
  else { w with writer := some (sequence, events), out_seq, records_out }

def finish (target_level : Nat) (w : Writing) : List SSTable :=
  match w.writer with
  | some (sequence, events) => w.outputs ++ [SSTable.write target_level sequence events]
  | none => w.outputs

def write_outputs (target_level sequence target_file_bytes : Nat) (events : List Event) :
    List SSTable :=
  finish target_level
    (events.foldl (write_event target_level target_file_bytes) ⟨[], none, sequence, 0⟩)

/-- The tables of the output files, in the order they are written. -/
def run (ssts : SSTableDir) (inputs : List SSTableInfo)
    (target_level sequence target_file_bytes : Nat) :
    Except SSTableError (List SSTable × CompactionStats) :=
  match read_inputs ssts [] inputs with
  | .error err => .error err
  | .ok all =>
      let events := merge target_level all
      let outputs := write_outputs target_level sequence target_file_bytes events
      .ok (outputs, ⟨inputs.length, outputs.length, all.length, events.length⟩)

/-- `run` with what `stats` points at: an empty list of inputs returns before it is
written. -/
def run_stats (ssts : SSTableDir) (inputs : List SSTableInfo)
    (target_level sequence target_file_bytes : Nat) (stats : CompactionStats) :
    Except SSTableError (List SSTable × CompactionStats) :=
  if inputs = [] then .ok ([], stats)
  else run ssts inputs target_level sequence target_file_bytes

/-- `make_path` -/
def output_path (out_dir : Nat) (t : SSTable) : SSTablePath :=
  ⟨out_dir, .compacted t.meta_.level t.meta_.sequence⟩

end Compaction

end Kronos
