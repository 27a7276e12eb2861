import Kronos.Lib.Framing
import Kronos.Spec.Symbols

/-!
# The symbol file is a stream of entries

An entry is six bytes and as many more as the last two of them say, so the file
is a `Framing.Format` and `load` is a scan of it: the entries the scan finds,
put in the maps one after the other. An entry is what `append_entry` and
`flush` write for a name whose length fits its two bytes.
-/

namespace Kronos

open Framing

/-! ## The format -/

/-- The name length in front of an entry. -/
def entryLen (l : Bytes) : Nat := (read_le 2 (l.drop 4) : BitVec 16).toNat

def entryId (l : Bytes) : UInt32 := .ofBitVec (read_le 4 l)

theorem read_le_congr {n w : Nat} {p q : Bytes} (h : p.take n = q.take n) :
    (read_le n p : BitVec w) = read_le n q := by
  refine LittleEndian.value_congr fun i hi => ?_
  have hget : ∀ l : Bytes, l.getD i 0 = (l.take n).getD i 0 := fun l => by
    rw [List.getD_eq_getElem?_getD, List.getD_eq_getElem?_getD, List.getElem?_take, if_pos hi]
  rw [hget p, hget q, h]

/-- The header says what the header of a prefix says. -/
theorem entryHeader_take {l r : Bytes} {n : Nat} (hn : 6 ≤ n) (hl : n ≤ l.length) :
    entryLen (l.take n ++ r) = entryLen l ∧ entryId (l.take n ++ r) = entryId l := by
  have htake : ∀ m ≤ n, (l.take n ++ r).take m = l.take m := fun m hm => by
    rw [List.take_append_of_le_length (by rw [List.length_take]; omega), List.take_take,
      Nat.min_eq_left hm]
  constructor
  · rw [entryLen, entryLen, read_le_congr (q := l.drop 4)]
    rw [List.take_drop, List.take_drop, htake (4 + 2) hn]
  · rw [entryId, entryId, read_le_congr (htake 4 (by omega))]

def symbolFormat : Format UInt8 (UInt32 × Bytes) where
  parse l :=
    if 6 ≤ l.length ∧ 6 + entryLen l ≤ l.length then
      some ((entryId l, (l.drop 6).take (entryLen l)), 6 + entryLen l)
    else none
  pos h := by
    split at h
    · cases h; omega
    · cases h
  le_length h := by
    split at h
    · next hle => cases h; exact hle.2
    · cases h
  local_ {l x n} h r := by
    split at h
    · next hle =>
        cases h
        obtain ⟨hlen, hid⟩ := entryHeader_take (r := r) (n := 6 + entryLen l) (by omega) hle.2
        have hlength : (l.take (6 + entryLen l)).length = 6 + entryLen l := by
          rw [List.length_take]; omega
        rw [if_pos (by rw [hlen, List.length_append]; omega), hlen, hid,
          List.drop_append_of_le_length (by omega), List.drop_take,
          List.take_append_of_le_length (by rw [List.length_take, List.length_drop]; omega),
          List.take_take]
        simp
    · cases h

theorem symbolFormat_nil : symbolFormat.parse [] = none := rfl

/-! ## Entries -/

theorem entry_length (id : UInt32) (name : Bytes) :
    (SymbolTable.entry id name).length = 6 + name.length := by
  simp [SymbolTable.entry, write_le]
  omega

/-- What the format makes of an entry: the length is cut to 16 bits. -/
theorem entryLen_entry (id : UInt32) (name r : Bytes) :
    entryLen (SymbolTable.entry id name ++ r) = name.length % 2 ^ 16 := by
  rw [entryLen, SymbolTable.entry, List.append_assoc, List.append_assoc, drop_write_le,
    read_le_write_le (by rfl), BitVec.toNat_ofNat]

theorem entryId_entry (id : UInt32) (name r : Bytes) :
    entryId (SymbolTable.entry id name ++ r) = id := by
  rw [entryId, SymbolTable.entry, List.append_assoc, List.append_assoc,
    read_le_write_le (by rfl)]

/-- An entry of a name that fits is read back. -/
theorem symbolFormat_entry (id : UInt32) {name : Bytes} (h : name.length ≤ 65535) :
    symbolFormat.parse (SymbolTable.entry id name) =
      some ((id, name), (SymbolTable.entry id name).length) := by
  have hlen := entryLen_entry id name []
  have hid := entryId_entry id name []
  rw [List.append_nil] at hlen hid
  rw [Nat.mod_eq_of_lt (by omega)] at hlen
  have hdrop : (SymbolTable.entry id name).drop 6 = name := by
    have hhead : (write_le 4 id.toBitVec ++ write_le 2 (BitVec.ofNat 16 name.length)).length = 6 := by
      simp [write_le]
    rw [SymbolTable.entry, ← hhead, List.drop_left]
  rw [symbolFormat]
  simp only [hlen, hid, hdrop, entry_length]
  rw [if_pos (by omega), List.take_length]

/-- No name that is read back is longer than an entry can say. -/
theorem symbolFormat_short {l : Bytes} {id : UInt32} {name : Bytes} {n : Nat}
    (h : symbolFormat.parse l = some ((id, name), n)) : name.length ≤ 65535 := by
  rw [symbolFormat] at h
  simp only [] at h
  split at h
  · cases h
    have hlt := (read_le 2 (l.drop 4) : BitVec 16).isLt
    rw [List.length_take, entryLen]
    omega
  · cases h

/-! ## Loading -/

/-- The entries `load` finds in a file. -/
def entriesIn (file : Bytes) : List (UInt32 × Bytes) := (symbolFormat.scan 0 file).map Prod.snd

namespace SymbolTable

/-- One round of the loop of `load`. -/
def addEntry (t : SymbolTable) (p : UInt32 × Bytes) : SymbolTable :=
  { name_to_id := t.name_to_id.insert p.2 p.1
    id_to_name := t.id_to_name.insert p.1 p.2
    next_id := if t.next_id ≤ p.1 then p.1 + 1 else t.next_id }

theorem load_from_eq (t : SymbolTable) (file : Bytes) (off : Nat) :
    load_from t file = ((symbolFormat.scan off file).map Prod.snd).foldl addEntry t := by
  induction file using Format.scan_induction (f := symbolFormat) generalizing t off with
  | stop l h =>
      rw [Format.scan_none h, load_from]
      simp only [symbolFormat] at h
      split at h
      · cases h
      · next hno =>
          split
          · next h6 => exact if_neg fun hle => hno ⟨h6, hle⟩
          · rfl
  | step l x n h ih =>
      rw [Format.scan_some h, List.map_cons, List.foldl_cons, ← ih]
      simp only [symbolFormat] at h
      split at h
      · next hle =>
          cases h
          rw [load_from, if_pos hle.1]
          exact if_pos hle.2
      · cases h

theorem load_eq (file : Bytes) : load file = (entriesIn file).foldl addEntry {} :=
  load_from_eq {} file 0

end SymbolTable

/-- The entries of names and ids that a walk goes over. -/
def walkEntries (walk : List (Sigma fun _ : Bytes => UInt32)) : List (UInt32 × Bytes) :=
  walk.map fun p => (p.2, p.1)

/-- Whole entries, and behind them nothing that is one. -/
theorem entriesIn_walk {walk : List (Sigma fun _ : Bytes => UInt32)}
    (hshort : ∀ p ∈ walk, p.1.length ≤ 65535) {tail : Bytes}
    (htail : symbolFormat.parse tail = none) :
    entriesIn (SymbolTable.flush_walk walk ++ tail) = walkEntries walk ∧
      symbolFormat.clean (SymbolTable.flush_walk walk ++ tail) =
        (SymbolTable.flush_walk walk).length := by
  have henc : ∀ p ∈ walk, symbolFormat.parse (SymbolTable.entry p.2 p.1) =
      some ((p.2, p.1), (SymbolTable.entry p.2 p.1).length) := fun p hp =>
    symbolFormat_entry p.2 (hshort p hp)
  obtain ⟨hscan, hclean⟩ := Format.scan_records htail henc 0
  rw [← SymbolTable.flush_walk] at hscan hclean
  exact ⟨by rw [entriesIn, hscan, Format.placed_map_snd, walkEntries], hclean⟩

end Kronos
