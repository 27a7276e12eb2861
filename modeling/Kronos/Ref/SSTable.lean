import Mathlib.Data.List.AList
import Kronos.Ref.MemTable

/-!
# Table files

An SSTable is written once, from events in key order, and read back whole: the
model keeps of a finished file what its reader gets out of it, the meta block
and the events of its blocks one after the other. A file whose writing was
interrupted may be anything; `TornTable` is whatever its reader happens to make
of it.

Which numbers a file name is made of is kept, its text is not: the two formats
pad their numbers and never agree.
-/

namespace Kronos

/-- The file names: `sst_l0_%06llu.sst` of a flush, `sst_%06llu_%06llu.sst` of
a compaction. -/
inductive SSTableName where
  | flushed (seq : Nat)
  | compacted (target_level out_seq : Nat)
  deriving DecidableEq, Repr

/-- A file in the directory `l<dir>`. -/
structure SSTablePath where
  dir : Nat
  name : SSTableName
  deriving DecidableEq, Repr

structure SSTableMeta where
  event_count : Nat
  min_key : Key
  max_key : Key
  level : Nat
  sequence : Nat
  deriving DecidableEq, Repr

structure SSTableInfo where
  path : SSTablePath
  meta_ : SSTableMeta
  deriving DecidableEq, Repr

structure SSTable where
  meta_ : SSTableMeta
  events : List Event
  deriving DecidableEq, Repr

/-- `SSTableWriter`: `add` for each event, then `finish`. The keys of the meta
block are the first and the last added. -/
def SSTable.write (level sequence : Nat) (events : List Event) : SSTable :=
  { meta_ :=
      { event_count := events.length
        min_key := (events.head?.map Event.key).getD ⟨0, 0, 0⟩
        max_key := (events.getLast?.map Event.key).getD ⟨0, 0, 0⟩
        level, sequence }
    events }

/-- What the reader of a torn file gets: the meta block, unless the constructor
throws; and the events a scan delivers and whether it then throws. -/
structure TornTable where
  meta_ : Option SSTableMeta
  deliver : Key → Key → List Event × Bool

inductive SSTableFile where
  | finished (t : SSTable)
  | torn (t : TornTable)

abbrev SSTableDir := AList (fun _ : SSTablePath => SSTableFile)

variable {σ : Type}

/-- `Block::scan`; the answer is the `cont` of `SSTableReader::scan`. -/
def block_scan (start end_ : Key) (cb : Callback σ) : σ → List Event → σ × Bool
  | s, [] => (s, true)
  | s, e :: es =>
      if e.key < start then block_scan start end_ cb s es
      else if end_ < e.key then (s, true)
      else
        match cb s e with
        | (s, true) => block_scan start end_ cb s es
        | (s, false) => (s, false)

/-- Hand over a list of events until the callback has enough. -/
def feed (cb : Callback σ) : σ → List Event → σ × Bool
  | s, [] => (s, true)
  | s, e :: es =>
      match cb s e with
      | (s, true) => feed cb s es
      | (s, false) => (s, false)

namespace SSTableFile

/-- The constructor of `SSTableReader`: the meta block, or it throws. -/
def read_meta : SSTableFile → Option SSTableMeta
  | finished t => some t.meta_
  | torn t => t.meta_

/-- `SSTableReader::scan`, and whether it threw. -/
def scan (start end_ : Key) (cb : Callback σ) (s : σ) : SSTableFile → σ × Bool
  | finished t =>
      if end_ < t.meta_.min_key ∨ t.meta_.max_key < start then (s, false)
      else ((block_scan start end_ cb s t.events).1, false)
  | torn t =>
      let (events, throws) := t.deliver start end_
      match feed cb s events with
      | (s, true) => (s, throws)
      | (s, false) => (s, false)

end SSTableFile

end Kronos
