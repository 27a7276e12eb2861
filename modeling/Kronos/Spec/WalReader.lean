import Kronos.Ref.Recovery

/-!
# What a segment says

A segment is a run of whole records of any payload, and behind them something
at whose front no record stands. The records that are read are those with a
payload of the size of an event; the others are passed over.
-/

namespace Kronos.Spec

open Kronos

/-- What a record can carry: its length is written in 32 bits. -/
structure Payload where
  bytes : Bytes
  short : bytes.length < 2 ^ 32

/-- The record around a payload: magic, version, length, checksum. -/
def framed (p : Payload) : Bytes :=
  write_u32 kWalMagic ++ [kWalVersion] ++ write_u32 (.ofNat p.bytes.length) ++
    write_u32 (wal_crc (kWalVersion :: write_u32 (.ofNat p.bytes.length)) p.bytes) ++ p.bytes

/-- The event of a payload of that size. -/
def Payload.event (p : Payload) : Option Event :=
  if p.bytes.length = Event.kEncodedSize then some (Event.decode p.bytes) else none

/-- The events of payloads whose records are laid end to end from `off` on. -/
def recordsOf : Nat → List Payload → List WALRecord
  | _, [] => []
  | off, p :: ps =>
      (p.event.map (⟨·, off⟩)).toList ++ recordsOf (off + (framed p).length) ps

def shift (n : Nat) (r : WALRecord) : WALRecord := { r with file_offset := n + r.file_offset }

/-! ## What recovery discards -/

/-- The files that `read_all` reads, in the order of their numbers. -/
def segments (dir : WalDir) : List Bytes :=
  (List.range' 1 dir.max_segment_id).filterMap dir.lookup

def discarded (dir : WalDir) : Nat :=
  ((segments dir).map fun file => file.length - (read_segment file).clean_end).sum

/-- Behind its whole records a segment ends before a header would. -/
def ShortTail (file : Bytes) : Prop :=
  ∃ (accepted : List Payload) (tail : Bytes),
    file = accepted.flatMap framed ++ tail ∧ tail.length < kWalHeaderSize

end Kronos.Spec
