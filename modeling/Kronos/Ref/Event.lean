import Kronos.Lib.LittleEndian
import Kronos.Ref.Key

/-!
# Events and their 65 bytes

`Event::encode` writes eleven fields one after the other, little-endian, at
offsets that a pointer is advanced to; `Event::decode` walks the same offsets
back. `write_le` and `read_le` are the template of the source: the loop over
`sizeof(T)` bytes, with `>>` arithmetic where `T` is signed.
-/

namespace Kronos

/-- `enum class EventType : uint8_t`: six named values, but any byte can be
read from a file. -/
structure EventType where
  byte : UInt8
  deriving DecidableEq, Repr

namespace EventType

def Trade : EventType := ⟨0⟩
def Quote : EventType := ⟨1⟩
def Add : EventType := ⟨2⟩
def Modify : EventType := ⟨3⟩
def Cancel : EventType := ⟨4⟩
/-- Logical delete marker. -/
def Tombstone : EventType := ⟨0xFF⟩

end EventType

/-- The defaults are those of `Event{}`. -/
structure Event where
  timestamp_ns : UInt64 := 0
  symbol_id : UInt32 := 0
  sequence_id : UInt64 := 0
  event_type : EventType := ⟨0⟩
  price_ticks : Int64 := 0
  bid_px_ticks : Int64 := 0
  ask_px_ticks : Int64 := 0
  quantity : UInt32 := 0
  bid_qty : UInt32 := 0
  ask_qty : UInt32 := 0
  order_id : UInt64 := 0
  deriving DecidableEq, Repr

/-- `write_le<T>` for an unsigned `T` of `n` bytes. -/
def write_le (n : Nat) {w : Nat} (v : BitVec w) : Bytes := LittleEndian.bytes n v

/-- `write_le<T>` for a signed `T` of `n` bytes. -/
def write_le_signed (n : Nat) {w : Nat} (v : BitVec w) : Bytes := LittleEndian.sbytes n v

/-- `read_le<T>`, `T` of `n` bytes. -/
def read_le (n : Nat) {w : Nat} (p : Bytes) : BitVec w := LittleEndian.value w n p

namespace Event

def kEncodedSize : Nat := 65

def key (e : Event) : Key := ⟨e.symbol_id, e.timestamp_ns, e.sequence_id⟩

/-- Nothing where the source throws "unknown event_type: ". -/
def parse_event_type (s : String) : Option EventType :=
  if s = "trade" then some .Trade
  else if s = "quote" then some .Quote
  else if s = "add" then some .Add
  else if s = "modify" then some .Modify
  else if s = "cancel" then some .Cancel
  else if s = "tombstone" then some .Tombstone
  else none

def event_type_name (t : EventType) : String :=
  if t = .Trade then "trade"
  else if t = .Quote then "quote"
  else if t = .Add then "add"
  else if t = .Modify then "modify"
  else if t = .Cancel then "cancel"
  else if t = .Tombstone then "tombstone"
  else "unknown"

def encode (e : Event) : Bytes :=
  write_le 8 e.timestamp_ns.toBitVec ++
  write_le 4 e.symbol_id.toBitVec ++
  write_le 8 e.sequence_id.toBitVec ++
  [e.event_type.byte] ++
  write_le_signed 8 e.price_ticks.toBitVec ++
  write_le_signed 8 e.bid_px_ticks.toBitVec ++
  write_le_signed 8 e.ask_px_ticks.toBitVec ++
  write_le 4 e.quantity.toBitVec ++
  write_le 4 e.bid_qty.toBitVec ++
  write_le 4 e.ask_qty.toBitVec ++
  write_le 8 e.order_id.toBitVec

def decode (data : Bytes) : Event :=
  let p := data
  let timestamp_ns := .ofBitVec (read_le 8 p)
  let p := p.drop 8
  let symbol_id := .ofBitVec (read_le 4 p)
  let p := p.drop 4
  let sequence_id := .ofBitVec (read_le 8 p)
  let p := p.drop 8
  let event_type := ⟨p.getD 0 0⟩
  let p := p.drop 1
  let price_ticks := .ofBitVec (read_le 8 p)
  let p := p.drop 8
  let bid_px_ticks := .ofBitVec (read_le 8 p)
  let p := p.drop 8
  let ask_px_ticks := .ofBitVec (read_le 8 p)
  let p := p.drop 8
  let quantity := .ofBitVec (read_le 4 p)
  let p := p.drop 4
  let bid_qty := .ofBitVec (read_le 4 p)
  let p := p.drop 4
  let ask_qty := .ofBitVec (read_le 4 p)
  let p := p.drop 4
  let order_id := .ofBitVec (read_le 8 p)
  { timestamp_ns, symbol_id, sequence_id, event_type, price_ticks, bid_px_ticks,
    ask_px_ticks, quantity, bid_qty, ask_qty, order_id }

@[simp] theorem encode_length (e : Event) : e.encode.length = kEncodedSize := by
  simp [encode, write_le, write_le_signed, kEncodedSize]

end Event

/-! ## Reading back what was written -/

theorem read_le_write_le {n w : Nat} (hw : w = 8 * n) (v : BitVec w) (r : Bytes) :
    read_le n (write_le n v ++ r) = v := by
  have happ := LittleEndian.value_append (w := w) (write_le n v) r
  rw [write_le, LittleEndian.bytes_length] at happ
  rw [read_le, write_le, happ, LittleEndian.value_bytes hw]

theorem write_le_signed_eq {n w : Nat} (hw : w = 8 * n) (v : BitVec w) :
    write_le_signed n v = write_le n v := LittleEndian.sbytes_eq_bytes hw v

theorem drop_write_le {n w : Nat} (v : BitVec w) (r : Bytes) :
    (write_le n v ++ r).drop n = r := by
  have h : (write_le n v ++ r).drop (write_le n v).length = r := List.drop_left
  rwa [write_le, LittleEndian.bytes_length] at h

/-- The eleven reads land on the eleven writes. -/
theorem Event.decode_encode (e : Event) : Event.decode e.encode = e := by
  have hlast : ∀ v : BitVec 64, read_le 8 (write_le 8 v) = v := fun v => by
    have h := read_le_write_le (n := 8) (by rfl) v []
    rwa [List.append_nil] at h
  simp only [Event.decode, Event.encode, List.append_assoc, write_le_signed_eq,
    read_le_write_le, drop_write_le, hlast, List.cons_append, List.nil_append,
    List.getD_cons_zero, List.drop_succ_cons, List.drop_zero]
  rfl

end Kronos
