import Mathlib.Data.BitVec
import Mathlib.Data.List.GetD
import Mathlib.Logic.Function.Iterate

/-!
# Reflected CRCs, one bit at a time

A register of `w` bits takes a message bit by bit: the bit is added to the low
end, the register moves down by one, and a one that falls out brings the
polynomial in. Moving down is linear in exclusive or, and where the polynomial
has its top bit set it loses nothing, so the register before a move is
determined by the one after.

A message of at most `w` bits can be added all at once before the moves, since
no bit of it falls out before its turn. That is what an entry of a byte table
is, and it is why two messages that differ in one run of at most `w` bits never
leave the same register.
-/

namespace Crc

section
variable {w : Nat} (poly : BitVec w)

/-- The register moved down by one bit. -/
def shift (c : BitVec w) : BitVec w :=
  if c.getLsbD 0 then (c >>> 1) ^^^ poly else c >>> 1

/-- One bit of the message. -/
def step (c : BitVec w) (b : Bool) : BitVec w :=
  if c.getLsbD 0 ^^ b then (c >>> 1) ^^^ poly else c >>> 1

def run (c : BitVec w) (message : List Bool) : BitVec w := message.foldl (step poly) c

/-- The bits of a byte string in the order they are taken, low bit first. -/
def bits (p : List UInt8) : List Bool :=
  p.flatMap fun b => (List.range 8).map b.toBitVec.getLsbD

/-- The register whose low bits are a message's, the first one lowest. -/
def word : List Bool → BitVec w
  | [] => 0
  | b :: m => (word m <<< 1) ^^^ (BitVec.ofBool b).setWidth w

/-! ## Moving down -/

theorem shift_getLsbD (c : BitVec w) (i : Nat) :
    (shift poly c).getLsbD i = (c.getLsbD (i + 1) ^^ (c.getLsbD 0 && poly.getLsbD i)) := by
  rw [shift]
  cases hc : c.getLsbD 0 <;> simp [BitVec.getLsbD_ushiftRight, Nat.add_comm]

theorem shift_xor (a b : BitVec w) : shift poly (a ^^^ b) = shift poly a ^^^ shift poly b := by
  apply BitVec.eq_of_getLsbD_eq
  intro i _
  simp only [BitVec.getLsbD_xor, shift_getLsbD]
  cases a.getLsbD 0 <;> cases b.getLsbD 0 <;> cases a.getLsbD (i + 1) <;>
    cases b.getLsbD (i + 1) <;> simp

/-- A register with nothing at its low end only moves. -/
theorem shift_shiftLeft {y : BitVec w} (h : y.getLsbD (w - 1) = false) :
    shift poly (y <<< 1) = y := by
  apply BitVec.eq_of_getLsbD_eq
  intro i hi
  have hlow : (y <<< 1).getLsbD 0 = false := by simp [BitVec.getLsbD_shiftLeft]
  rw [shift_getLsbD, hlow, Bool.false_and, Bool.xor_false, BitVec.getLsbD_shiftLeft,
    show i + 1 - 1 = i by rfl]
  rcases Nat.lt_or_ge (i + 1) w with hlt | hge
  · simp only [hlt]
    simp
  · rw [show i = w - 1 by omega, h, Bool.and_false]

/-- The low bit and what stands above it after a message bit is added. -/
theorem added_getLsbD (hw : 0 < w) (c : BitVec w) (b : Bool) :
    (c ^^^ (BitVec.ofBool b).setWidth w).getLsbD 0 = (c.getLsbD 0 ^^ b) ∧
      ∀ i, (c ^^^ (BitVec.ofBool b).setWidth w).getLsbD (i + 1) = c.getLsbD (i + 1) := by
  apply And.intro
  · rw [BitVec.getLsbD_xor, BitVec.getLsbD_setWidth]
    simp [hw]
  · intro i
    rw [BitVec.getLsbD_xor, BitVec.getLsbD_setWidth]
    simp

theorem step_eq (hw : 0 < w) (c : BitVec w) (b : Bool) :
    step poly c b = shift poly (c ^^^ (BitVec.ofBool b).setWidth w) := by
  obtain ⟨hlow, hhigh⟩ := added_getLsbD hw c b
  have hmove : c >>> 1 = (c ^^^ (BitVec.ofBool b).setWidth w) >>> 1 := by
    apply BitVec.eq_of_getLsbD_eq
    intro i _
    rw [BitVec.getLsbD_ushiftRight, BitVec.getLsbD_ushiftRight, Nat.add_comm, hhigh]
  rw [step, shift, hlow, hmove]

theorem shift_iterate_xor (n : Nat) (a b : BitVec w) :
    (shift poly)^[n] (a ^^^ b) = (shift poly)^[n] a ^^^ (shift poly)^[n] b := by
  induction n generalizing a b with
  | zero => rfl
  | succ n ih =>
      rw [Function.iterate_succ_apply, shift_xor, ih]
      rfl

/-- Nothing is added while only zeros fall out. -/
theorem shift_iterate_high {n : Nat} {c : BitVec w} (h : ∀ i < n, c.getLsbD i = false) :
    (shift poly)^[n] c = c >>> n := by
  induction n with
  | zero => simp
  | succ n ih =>
      have hrest : ∀ i < n, c.getLsbD i = false := by
        intro i hi
        exact h i (by omega)
      have hlow : (c >>> n).getLsbD 0 = false := by
        rw [BitVec.getLsbD_ushiftRight]
        exact h n (by omega)
      rw [Function.iterate_succ_apply', ih hrest, shift, hlow, BitVec.shiftRight_add]
      rfl

/-! ## Messages -/

@[simp] theorem run_nil (c : BitVec w) : run poly c [] = c := rfl

@[simp] theorem run_cons (c : BitVec w) (b : Bool) (m : List Bool) :
    run poly c (b :: m) = run poly (step poly c b) m := rfl

theorem run_append (c : BitVec w) (m m' : List Bool) :
    run poly c (m ++ m') = run poly (run poly c m) m' := by
  simp only [run, List.foldl_append]

theorem word_getLsbD (m : List Bool) (i : Nat) :
    (word m : BitVec w).getLsbD i = (decide (i < w) && m.getD i false) := by
  induction m generalizing i with
  | nil => simp [word]
  | cons b m ih =>
      rw [word, BitVec.getLsbD_xor, BitVec.getLsbD_shiftLeft, BitVec.getLsbD_setWidth]
      cases i with
      | zero => simp
      | succ i =>
          rw [show i + 1 - 1 = i by rfl, ih]
          by_cases hi : i + 1 < w
          · simp [hi, show i < w by omega]
          · simp [hi]

theorem word_injective {m m' : List Bool} (hlen : m.length = m'.length) (hm : m.length ≤ w)
    (h : (word m : BitVec w) = word m') : m = m' := by
  apply List.ext_getElem hlen
  intro i hi hi'
  have hin : i < w := by omega
  have hbit : (word m : BitVec w).getLsbD i = (word m' : BitVec w).getLsbD i := by rw [h]
  rw [word_getLsbD, word_getLsbD, decide_eq_true hin, Bool.true_and, Bool.true_and] at hbit
  simpa [List.getD_eq_getElem?_getD, hi, hi'] using hbit

/-- A message no longer than the register is added before the moves. -/
theorem run_eq {m : List Bool} (hm : m.length ≤ w) (c : BitVec w) :
    run poly c m = (shift poly)^[m.length] (c ^^^ word m) := by
  induction m generalizing c with
  | nil => simp [word]
  | cons b m ih =>
      rw [List.length_cons] at hm
      have htop : (word m : BitVec w).getLsbD (w - 1) = false := by
        rw [word_getLsbD, List.getD_eq_default _ _ (by omega), Bool.and_false]
      have hadd : c ^^^ word (b :: m) =
          c ^^^ (BitVec.ofBool b).setWidth w ^^^ (word m <<< 1) := by
        rw [word, BitVec.xor_assoc, BitVec.xor_comm (word m <<< 1)]
      have hmove : shift poly (c ^^^ word (b :: m)) = step poly c b ^^^ word m := by
        rw [hadd, shift_xor, shift_shiftLeft poly htop, step_eq poly (by omega)]
      rw [run_cons, ih (by omega), List.length_cons, Function.iterate_succ_apply, hmove]

/-! ## Nothing is lost -/

section
variable {poly} (htop : poly.getLsbD (w - 1) = true)
include htop

theorem shift_injective : Function.Injective (shift poly) := by
  intro a b h
  have hbit : ∀ i, (a.getLsbD (i + 1) ^^ (a.getLsbD 0 && poly.getLsbD i)) =
      (b.getLsbD (i + 1) ^^ (b.getLsbD 0 && poly.getLsbD i)) := by
    intro i
    rw [← shift_getLsbD, ← shift_getLsbD, h]
  -- what fell out shows in the top bit
  have hlow : a.getLsbD 0 = b.getLsbD 0 := by
    have hlast := hbit (w - 1)
    rwa [BitVec.getLsbD_of_ge a _ (by omega), BitVec.getLsbD_of_ge b _ (by omega), htop,
      Bool.and_true, Bool.and_true, Bool.false_xor, Bool.false_xor] at hlast
  apply BitVec.eq_of_getLsbD_eq
  intro i _
  cases i with
  | zero => exact hlow
  | succ i =>
      have hi := hbit i
      rwa [hlow, Bool.xor_left_inj] at hi

theorem run_injective (m : List Bool) : Function.Injective fun c => run poly c m := by
  have hw : 0 < w := by
    by_contra hw
    rw [BitVec.getLsbD_of_ge _ _ (by omega)] at htop
    cases htop
  induction m with
  | nil => exact fun a b h => h
  | cons b m ih =>
      intro c c' h
      have hstep := ih h
      rw [step_eq poly hw, step_eq poly hw] at hstep
      exact (BitVec.xor_left_inj _).mp (shift_injective htop hstep)

/-- Two messages that differ in a run of at most `w` bits leave different
registers. -/
theorem run_burst {m m' : List Bool} (hlen : m.length = m'.length) (hm : m.length ≤ w)
    (c : BitVec w) (before after : List Bool)
    (h : run poly c (before ++ m ++ after) = run poly c (before ++ m' ++ after)) : m = m' := by
  rw [run_append, run_append, run_append, run_append] at h
  have hmid := run_injective htop after h
  have hm' : m'.length ≤ w := by omega
  rw [run_eq poly hm, run_eq poly hm', ← hlen] at hmid
  have hword := (shift_injective htop).iterate _ hmid
  exact word_injective hlen hm ((BitVec.xor_right_inj _).mp hword)

end

/-! ## Bytes -/

@[simp] theorem bits_nil : bits [] = [] := rfl

@[simp] theorem bits_append (p q : List UInt8) : bits (p ++ q) = bits p ++ bits q := by
  simp [bits]

theorem bits_cons (b : UInt8) (p : List UInt8) : bits (b :: p) = bits [b] ++ bits p := by
  simp [bits]

theorem bits_length (p : List UInt8) : (bits p).length = 8 * p.length := by
  induction p with
  | nil => rfl
  | cons b p ih =>
      rw [bits_cons, List.length_append, ih]
      simp [bits]
      omega

theorem bits_injective {p q : List UInt8} (hlen : p.length = q.length) (h : bits p = bits q) :
    p = q := by
  induction p generalizing q with
  | nil =>
      cases q with
      | nil => rfl
      | cons c q => simp at hlen
  | cons b p ih =>
      cases q with
      | nil => simp at hlen
      | cons c q =>
          rw [bits_cons b, bits_cons c] at h
          obtain ⟨hhead, htail⟩ := List.append_inj h (by simp [bits])
          have hbyte : b = c := by
            rw [← UInt8.toBitVec_inj]
            apply BitVec.eq_of_getLsbD_eq
            intro i hi
            have hbit := congrArg (fun l : List Bool => l.getD i false) hhead
            simpa [bits, List.getD_eq_getElem?_getD, hi] using hbit
          rw [hbyte, ih (by simpa using hlen) htail]

theorem word_bits (b : UInt8) :
    (word (bits [b]) : BitVec w) = b.toBitVec.setWidth w := by
  apply BitVec.eq_of_getLsbD_eq
  intro i hi
  rw [word_getLsbD, BitVec.getLsbD_setWidth]
  by_cases hlt : i < 8
  · simp [bits, List.getD_eq_getElem?_getD, hlt]
  · rw [List.getD_eq_default _ _ (by rw [bits_length]; simp; omega),
      BitVec.getLsbD_of_ge _ _ (by omega), Bool.and_false]

/-- A byte at a time: the register without its low byte, and what the low byte
and the message's byte together leave after eight moves. -/
theorem run_byte (hw : 8 ≤ w) (c : BitVec w) (b : UInt8) :
    run poly c (bits [b]) = (c >>> 8) ^^^
      (shift poly)^[8] ((c ^^^ b.toBitVec.setWidth w) &&& 0xFF#w) := by
  have hlen : (bits [b]).length = 8 := by rw [bits_length]; rfl
  have hmask : ∀ i < w, (0xFF#w).getLsbD i = decide (i < 8) := by
    intro i hi
    rw [BitVec.getLsbD_ofNat, show 0xFF = 2 ^ 8 - 1 by rfl, Nat.testBit_two_pow_sub_one]
    simp [hi]
  -- the part above the low byte, and the low byte
  have hsplit : c ^^^ b.toBitVec.setWidth w = (c &&& ~~~0xFF#w) ^^^
      ((c ^^^ b.toBitVec.setWidth w) &&& 0xFF#w) := by
    apply BitVec.eq_of_getLsbD_eq
    intro i hi
    simp only [BitVec.getLsbD_xor, BitVec.getLsbD_and, BitVec.getLsbD_not, hmask i hi,
      BitVec.getLsbD_setWidth]
    by_cases hlt : i < 8
    · simp [hi, hlt]
    · simp [hi, hlt, BitVec.getLsbD_of_ge b.toBitVec i (by omega)]
  have hclear : ∀ i < 8, (c &&& ~~~0xFF#w).getLsbD i = false := by
    intro i hi
    rw [BitVec.getLsbD_and, BitVec.getLsbD_not, hmask i (by omega)]
    simp [hi]
  have hhigh : (c &&& ~~~0xFF#w) >>> 8 = c >>> 8 := by
    apply BitVec.eq_of_getLsbD_eq
    intro i _
    rw [BitVec.getLsbD_ushiftRight, BitVec.getLsbD_ushiftRight, BitVec.getLsbD_and,
      BitVec.getLsbD_not]
    by_cases hin : 8 + i < w
    · rw [hmask _ hin]
      simp [hin]
    · rw [BitVec.getLsbD_of_ge c _ (by omega), Bool.false_and]
  calc run poly c (bits [b])
      = (shift poly)^[8] (c ^^^ b.toBitVec.setWidth w) := by
        rw [run_eq poly (by omega), hlen, word_bits]
    _ = (shift poly)^[8] (c &&& ~~~0xFF#w) ^^^
        (shift poly)^[8] ((c ^^^ b.toBitVec.setWidth w) &&& 0xFF#w) := by
        rw [← shift_iterate_xor, ← hsplit]
    _ = _ := by rw [shift_iterate_high poly hclear, hhigh]

end

end Crc
