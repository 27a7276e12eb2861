import Kronos.Proofs.BlockFormat

/-!
# The filter has no false negatives

Adding a key sets its bits and clears none, so a key that was added once is
found from then on, and the bits survive the encoding. Positions are below the
number of bits, and there is a byte for every one of them.
-/

namespace Kronos.BloomFilter

open Kronos

/-- There is a byte for every bit, and a bit. -/
structure Addressed (f : BloomFilter) : Prop where
  some_bit : 0 < f.m.toNat
  bits : f.bits.length = byte_count f.m
  room : f.m.toNat + 7 < 2 ^ 32

variable {f : BloomFilter}

theorem blank_addressed {m : UInt32} (k : UInt32) (hpos : 0 < m.toNat)
    (hroom : m.toNat + 7 < 2 ^ 32) : (blank m k).Addressed :=
  ⟨hpos, List.length_replicate, hroom⟩

theorem new_addressed (size : FilterSize) : (new size).Addressed := by
  have hroom := size.addressable
  have hm : (UInt32.ofNat (max size.m_d 8)).toNat = max size.m_d 8 :=
    UInt32.toNat_ofNat_of_lt' (show _ < 2 ^ 32 by omega)
  refine blank_addressed _ ?_ ?_
  · rw [hm]
    omega
  · rw [hm]
    omega

theorem Addressed.byte_of (h : f.Addressed) {pos : UInt32} (hpos : pos.toNat < f.m.toNat) :
    (pos / 8).toNat < f.bits.length := by
  have hroom := h.room
  rw [h.bits, byte_count, UInt32.toNat_div, UInt32.toNat_div, UInt32.toNat_add]
  have h7 : (7 : UInt32).toNat = 7 := rfl
  have h8 : (8 : UInt32).toNat = 8 := rfl
  rw [h7, h8, Nat.mod_eq_of_lt hroom]
  omega

/-! ## Bits -/

theorem get_bit_iff (pos : UInt32) (f : BloomFilter) :
    f.get_bit pos = true ↔
      (f.bits.getD (pos / 8).toNat 0).toNat.testBit (pos % 8).toNat = true := by
  have hmod : (pos % 8).toNat < 8 := by
    rw [UInt32.toNat_mod]
    exact Nat.mod_lt _ (by decide)
  have hone : (1 : UInt32).toNat = 1 := rfl
  rw [get_bit, decide_eq_true_eq, Ne, ← UInt32.toNat_inj, UInt32.toNat_and,
    UInt32.toNat_shiftRight, UInt8.toNat_toUInt32, Nat.mod_eq_of_lt (by omega), hone, Nat.testBit,
    Nat.and_comm]
  exact (bne_iff_ne (a := 1 &&& _) (b := 0)).symm

theorem mask_testBit {n : UInt32} (hn : n.toNat < 8) (j : Nat) :
    ((1 : UInt32) <<< n).toUInt8.toNat.testBit j = decide (j = n.toNat) := by
  have hpow : ((1 : UInt32) <<< n).toUInt8.toNat = 2 ^ n.toNat := by
    have hone : (1 : UInt32).toNat = 1 := rfl
    have hlt : 2 ^ n.toNat < 2 ^ 8 := Nat.pow_lt_pow_right (by decide) hn
    have hmod : n.toNat % 32 = n.toNat := Nat.mod_eq_of_lt (by omega)
    rw [UInt32.toNat_toUInt8, UInt32.toNat_shiftLeft, hone, hmod, Nat.one_shiftLeft,
      Nat.mod_eq_of_lt (show 2 ^ n.toNat < 2 ^ 32 by omega), Nat.mod_eq_of_lt hlt]
  rw [hpow, Nat.testBit_two_pow]
  exact decide_eq_decide.mpr eq_comm

/-- Setting a bit sets it and leaves the others. -/
theorem get_bit_set_bit {pos q : UInt32} (hbyte : (pos / 8).toNat < f.bits.length) :
    (f.set_bit pos).get_bit q = true ↔ q = pos ∨ f.get_bit q = true := by
  have hmod : (pos % 8).toNat < 8 := by
    rw [UInt32.toNat_mod]
    exact Nat.mod_lt _ (by decide)
  have hsplit : q = pos ↔ (q / 8).toNat = (pos / 8).toNat ∧ (q % 8).toNat = (pos % 8).toNat := by
    rw [← UInt32.toNat_inj, UInt32.toNat_div, UInt32.toNat_div, UInt32.toNat_mod,
      UInt32.toNat_mod]
    have h8 : (8 : UInt32).toNat = 8 := rfl
    rw [h8]
    omega
  rw [get_bit_iff, get_bit_iff, set_bit, hsplit]
  dsimp only
  by_cases hq : (q / 8).toNat = (pos / 8).toNat
  · rw [hq, List.getD_eq_getElem?_getD, List.getElem?_modify_eq, List.getD_eq_getElem?_getD,
      List.getElem?_eq_getElem hbyte, Option.map_eq_map, Option.map_some,
      Option.getD_some, Option.getD_some, UInt8.toNat_or, Nat.testBit_or, mask_testBit hmod, Bool.or_eq_true, decide_eq_true_eq]
    simp only [true_and, or_comm]
  · rw [List.getD_eq_getElem?_getD, List.getElem?_modify_ne _ _ (Ne.symm hq),
      ← List.getD_eq_getElem?_getD]
    simp only [hq, false_and, false_or]

theorem set_bit_addressed (h : f.Addressed) (pos : UInt32) : (f.set_bit pos).Addressed :=
  ⟨h.some_bit, (List.length_modify _ _ _).trans h.bits, h.room⟩

/-! ## Keys -/

/-- The bits that `f` has, `g` has. -/
structure Within (f g : BloomFilter) : Prop where
  k : g.k = f.k
  m : g.m = f.m
  bits : ∀ pos, f.get_bit pos = true → g.get_bit pos = true

theorem Within.refl (f : BloomFilter) : Within f f := ⟨rfl, rfl, fun _ => id⟩

theorem Within.trans {f g h : BloomFilter} (hfg : Within f g) (hgh : Within g h) : Within f h :=
  ⟨hgh.k.trans hfg.k, hgh.m.trans hfg.m, fun pos hpos => hgh.bits pos (hfg.bits pos hpos)⟩

theorem position_lt (h : f.Addressed) (key : Bytes) (i : Nat) :
    (position f.m key i).toNat < f.m.toNat := by
  rw [position, UInt32.toNat_mod]
  exact Nat.mod_lt _ h.some_bit

theorem set_bits_spec (key : Bytes) (is : List Nat) (h : f.Addressed) :
    let g := is.foldl (fun f i => f.set_bit (position f.m key i)) f
    g.Addressed ∧ Within f g ∧ ∀ i ∈ is, g.get_bit (position f.m key i) = true := by
  induction is generalizing f with
  | nil => exact ⟨h, .refl f, fun i hi => by cases hi⟩
  | cons i is ih =>
      have hbyte := h.byte_of (position_lt h key i)
      have hset : Within f (f.set_bit (position f.m key i)) :=
        ⟨rfl, rfl, fun pos hpos => (get_bit_set_bit hbyte).mpr (.inr hpos)⟩
      obtain ⟨hg, hwithin, hrest⟩ := ih (set_bit_addressed h (position f.m key i))
      refine ⟨hg, hset.trans hwithin, fun j hj => ?_⟩
      rcases List.mem_cons.mp hj with rfl | hj
      · exact hwithin.bits _ ((get_bit_set_bit hbyte).mpr (.inl rfl))
      · exact hrest j hj

theorem Within.may_contain {f g : BloomFilter} (h : Within f g) {key : Bytes}
    (hkey : f.may_contain key = true) : g.may_contain key = true := by
  rw [BloomFilter.may_contain] at hkey ⊢
  rw [h.k, h.m]
  split
  · rfl
  · next hm =>
      rw [if_neg hm] at hkey
      exact List.all_eq_true.mpr fun i hi => h.bits _ (List.all_eq_true.mp hkey i hi)

/-- A key that is added is found, and so is every key that was. -/
theorem add_spec (h : f.Addressed) (key : Bytes) :
    (f.add key).Addressed ∧ Within f (f.add key) ∧ (f.add key).may_contain key = true := by
  have hm : f.m ≠ 0 := fun hm => by
    have hbit := h.some_bit
    rw [hm] at hbit
    exact absurd hbit (by decide)
  obtain ⟨hg, hwithin, hset⟩ := set_bits_spec key (List.range f.k.toNat) h
  rw [add, if_neg hm]
  refine ⟨hg, hwithin, ?_⟩
  rw [may_contain, hwithin.m, hwithin.k, if_neg hm]
  exact List.all_eq_true.mpr hset

/-! ## Encoding -/

theorem Addressed.encode_length (h : f.Addressed) : f.encode.length = 8 + byte_count f.m := by
  simp [encode, h.bits]
  omega

theorem decode_encode (h : f.Addressed) : decode f.encode = .ok f := by
  have hlen := h.encode_length
  have hk : r32 f.encode = f.k := by simp only [encode, List.append_assoc, r32_w32]
  have hm : r32 (f.encode.drop 4) = f.m := by
    simp only [encode, List.append_assoc, drop_w32, r32_w32]
  have hall : f.bits.take (byte_count f.m) = f.bits := List.take_of_length_le h.bits.le
  have hbits : (f.encode.drop 8).take (byte_count f.m) = f.bits := by
    rw [encode, List.drop_left' (by simp), hall, hall]
  rw [decode, if_neg (by omega)]
  simp only [hk, hm, hbits]
  rw [if_neg (by omega)]

end Kronos.BloomFilter
