import Mathlib.Data.List.AList
import Kronos.Ref.Crc32c
import Kronos.Ref.Event

/-!
# The write-ahead log

A WAL directory is a set of numbered segment files. `WALWriter` holds one of
them open for appending and moves to the next number when it is full;
`WALReader` reads them back in order, each up to the first thing in it that is
not a record.

The writer throws from the middle of its work, so its functions answer an
`EStateM.Result`: an error carries the state the exception left behind. What
the operating system did is an argument, `AppendIO`: how many bytes of the
record `write(2)` stored and whether the `open(2)` of a rotation succeeded.
File offsets and segment numbers are natural numbers, as no file reaches 2^63
bytes and no directory 2^64 files.
-/

namespace Kronos

/-! ## Little-endian helpers -/

def write_u32 (v : UInt32) : Bytes :=
  [v.toUInt8, (v >>> 8).toUInt8, (v >>> 16).toUInt8, (v >>> 24).toUInt8]

def read_u32 (p : Bytes) : UInt32 :=
  (p.getD 0 0).toUInt32 |||
  ((p.getD 1 0).toUInt32 <<< 8) |||
  ((p.getD 2 0).toUInt32 <<< 16) |||
  ((p.getD 3 0).toUInt32 <<< 24)

/-! ## Records -/

def kWalMagic : UInt32 := 0x4B524F4E
def kWalVersion : UInt8 := 0x01
/-- magic(4) + version(1) + len(4) + crc(4) -/
def kWalHeaderSize : Nat := 13

structure WALRecord where
  event : Event
  /-- byte offset of this record in its segment -/
  file_offset : Nat
  deriving DecidableEq, Repr

structure WALAppendResult where
  file_offset : Nat
  segment_id : Nat
  deriving DecidableEq, Repr

/-- The CRC of `version || payload_len || payload` as a single stream. -/
def wal_crc (version_and_len payload : Bytes) : UInt32 :=
  crc32c payload (crc32c version_and_len)

/-- The buffer `rec` that `WALWriter::append` fills. -/
def wal_record (e : Event) : Bytes :=
  let payload := e.encode
  let payload_size := UInt32.ofNat payload.length
  let hdr_for_crc := kWalVersion :: write_u32 payload_size
  let crc := wal_crc hdr_for_crc payload
  write_u32 kWalMagic ++ [kWalVersion] ++ write_u32 payload_size ++ write_u32 crc ++ payload

/-! ## The directory -/

/-- The files `wal_%06llu.log` of a directory, by the number in their name. -/
abbrev WalDir := AList (fun _ : Nat => Bytes)

/-- The largest number the constructors find when they list the directory. -/
def WalDir.max_segment_id (dir : WalDir) : Nat := dir.keys.foldl max 0

/-- The bytes of a segment; `O_CREAT` starts a missing one empty. -/
def WalDir.contents (dir : WalDir) (id : Nat) : Bytes := (dir.lookup id).getD []

/-! ## WALReader -/

/-- What `read_segment` reports about one file. -/
structure SegmentScan where
  records : List WALRecord
  torn : Bool
  torn_bytes : Nat
  clean_end : Nat
  deriving DecidableEq, Repr

/-- The `while` loop of `read_segment`, on a file that is fully readable: the
records from `offset` on, what the loop itself reports as torn, and the offset
it stops at. -/
def read_loop (file : Bytes) (offset : Nat) : SegmentScan :=
  if offset + kWalHeaderSize ≤ file.length then
    let hdr := (file.drop offset).take kWalHeaderSize
    let magic := read_u32 hdr
    let version := hdr.getD 4 0
    let payload_len := (read_u32 (hdr.drop 5)).toNat
    let stored_crc := read_u32 (hdr.drop 9)
    if magic ≠ kWalMagic ∨ version ≠ kWalVersion then
      ⟨[], true, file.length - offset, offset⟩
    else if file.length < offset + kWalHeaderSize + payload_len then
      ⟨[], true, file.length - offset, offset⟩
    else
      let payload := (file.drop (offset + kWalHeaderSize)).take payload_len
      let hdr_for_crc := version :: write_u32 (.ofNat payload_len)
      if wal_crc hdr_for_crc payload ≠ stored_crc then
        ⟨[], true, file.length - offset, offset⟩
      else
        let rest := read_loop file (offset + kWalHeaderSize + payload_len)
        -- a payload of another size is skipped
        if payload_len = Event.kEncodedSize then
          { rest with records := ⟨Event.decode payload, offset⟩ :: rest.records }
        else rest
  else ⟨[], false, 0, offset⟩
termination_by file.length - offset
decreasing_by
  simp only [kWalHeaderSize] at *
  omega

def read_segment (file : Bytes) : SegmentScan :=
  let r := read_loop file 0
  -- any bytes after the last fully-consumed record are a torn write
  if r.clean_end < file.length then
    { r with torn := true, torn_bytes := r.torn_bytes + (file.length - r.clean_end) }
  else r

/-- What `read_all` returns and writes through its out parameters. -/
structure ReadAll where
  records : List WALRecord := []
  torn : Bool := false
  torn_bytes : Nat := 0
  clean_end_offset : Nat := 0
  deriving DecidableEq, Repr

/-- One round of `read_all`'s loop: a number with no file is passed over. -/
def read_next (dir : WalDir) (r : ReadAll) (id : Nat) : ReadAll :=
  match dir.lookup id with
  | none => r
  | some file =>
      let seg := read_segment file
      { records := r.records ++ seg.records
        torn := r.torn || seg.torn
        torn_bytes := r.torn_bytes + seg.torn_bytes
        clean_end_offset := seg.clean_end }

def read_all (dir : WalDir) : ReadAll :=
  (List.range' 1 dir.max_segment_id).foldl (read_next dir) {}

/-! ## WALWriter -/

structure WALWriter where
  max_segment_bytes : Nat
  /-- the segment the descriptor is open on; `none` is `fd_ = -1` -/
  fd : Option Nat
  segment_id : Nat
  current_offset : Nat
  deriving DecidableEq, Repr

/-- The writer with the directory it works in. -/
structure WalState where
  dir : WalDir
  writer : WALWriter

inductive WalError where
  /-- "WAL write failed" -/
  | write_failed
  /-- "WAL open failed: " and the path of the segment -/
  | open_failed (segment_id : Nat)
  deriving DecidableEq, Repr

abbrev WalResult := EStateM.Result WalError WalState

/-- What the operating system does to one `append`: how many bytes of the
record `write(2)` stores, and whether `open(2)` succeeds if the call rotates.
A count short of the record comes back short or as an error. -/
structure AppendIO where
  stored : Nat := kWalHeaderSize + Event.kEncodedSize
  open_ok : Bool := true
  deriving DecidableEq, Repr

namespace WALWriter

/-- The descriptor held so far is closed; `O_CREAT` makes a missing file,
`O_APPEND` starts at the end of an existing one. -/
def open_segment (id : Nat) (open_ok : Bool) (s : WalState) : WalResult Unit :=
  if open_ok then
    let file := s.dir.contents id
    .ok () { dir := s.dir.insert id file
             writer := { s.writer with
               fd := some id, current_offset := file.length, segment_id := id } }
  else .error (.open_failed id) { s with writer := { s.writer with fd := none } }

def rotate (open_ok : Bool) (s : WalState) : WalResult Unit :=
  let id := s.writer.segment_id + 1
  open_segment id open_ok
    { s with writer := { s.writer with segment_id := id, current_offset := 0 } }

/-- The constructor: append to the highest-numbered segment, or start the
first one. -/
def create (dir : WalDir) (max_segment_bytes : Nat) (open_ok : Bool := true) :
    WalResult Unit :=
  let max_id := dir.max_segment_id
  let id := if max_id > 0 then max_id else 1
  open_segment id open_ok
    { dir, writer := { max_segment_bytes, fd := none, segment_id := id, current_offset := 0 } }

/-- `ftruncate` on the open descriptor. -/
def truncate (size : Nat) (s : WalState) : WalState :=
  match s.writer.fd with
  | none => s
  | some id =>
      { s with dir := s.dir.insert id ((s.dir.contents id).take size) }

def truncate_and_seal (clean_end_offset : Nat) (open_ok : Bool) (s : WalState) :
    WalResult Unit :=
  let s := if clean_end_offset < s.writer.current_offset then truncate clean_end_offset s else s
  rotate open_ok s

/-- `write(2)` on an `O_APPEND` descriptor. -/
def write (data : Bytes) (id : Nat) (s : WalState) : WalState :=
  { s with dir := s.dir.insert id (s.dir.contents id ++ data) }

def append (e : Event) (io : AppendIO) (s : WalState) : WalResult WALAppendResult :=
  let rec_ := wal_record e
  -- the segment this record lands in: rotation happens after the write
  let result : WALAppendResult := ⟨s.writer.current_offset, s.writer.segment_id⟩
  match s.writer.fd with
  | none => .error .write_failed s
  | some id =>
      let s := write (rec_.take io.stored) id s
      if io.stored < rec_.length then .error .write_failed s
      else
        let s := { s with writer := { s.writer with
          current_offset := s.writer.current_offset + rec_.length } }
        if s.writer.max_segment_bytes ≤ s.writer.current_offset then
          match rotate io.open_ok s with
          | .error err s => .error err s
          | .ok _ s => .ok result s
        else .ok result s

end WALWriter

/-- The log's part of `DB::open`: recover the records, open the writer, and
truncate and seal if the recovery saw a torn tail. -/
def wal_recover (dir : WalDir) (max_segment_bytes : Nat) : ReadAll × WalResult Unit :=
  let r := read_all dir
  match WALWriter.create dir max_segment_bytes with
  | .error err s => (r, .error err s)
  | .ok _ s =>
      (r, if r.torn then WALWriter.truncate_and_seal r.clean_end_offset true s else .ok () s)

end Kronos
