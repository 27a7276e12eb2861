import Mathlib.Data.Prod.Lex
import Mathlib.Order.Lattice

/-!
# The primary key

A version of an event is addressed by the symbol it belongs to, its timestamp
and its sequence id, compared in that order. The defaulted `operator<=>` of
the source is the lexicographic order on the three fields, which is what the
instance below is lifted from.
-/

namespace Kronos

/-- The bytes of a file, a buffer or a `std::string`. -/
abbrev Bytes := List UInt8

structure Key where
  symbol_id : UInt32
  timestamp_ns : UInt64
  sequence_id : UInt64
  deriving DecidableEq, Repr

namespace Key

/-- The three fields as the tuple the comparison walks. -/
def tie (k : Key) : Nat ×ₗ Nat ×ₗ Nat :=
  toLex (k.symbol_id.toNat, toLex (k.timestamp_ns.toNat, k.sequence_id.toNat))

theorem tie_injective : Function.Injective tie := by
  intro a b h
  cases a
  cases b
  simp only [tie, EmbeddingLike.apply_eq_iff_eq, Prod.mk.injEq] at h
  obtain ⟨h1, h2, h3⟩ := h
  rw [Key.mk.injEq]
  exact ⟨UInt32.toNat_inj.mp h1, UInt64.toNat_inj.mp h2, UInt64.toNat_inj.mp h3⟩

instance : LinearOrder Key where
  le a b := tie a ≤ tie b
  lt a b := tie a < tie b
  le_refl a := le_refl (tie a)
  le_trans a b c := le_trans (α := Nat ×ₗ Nat ×ₗ Nat)
  lt_iff_le_not_ge a b := lt_iff_le_not_ge (a := tie a)
  le_antisymm a b h h' := tie_injective (le_antisymm h h')
  le_total a b := le_total (tie a) (tie b)
  toDecidableLE a b := inferInstanceAs (Decidable (tie a ≤ tie b))
  toDecidableLT a b := inferInstanceAs (Decidable (tie a < tie b))
  toDecidableEq := inferInstance

theorem le_iff {a b : Key} :
    a ≤ b ↔ a.symbol_id.toNat < b.symbol_id.toNat ∨
      a.symbol_id = b.symbol_id ∧ (a.timestamp_ns.toNat < b.timestamp_ns.toNat ∨
        a.timestamp_ns = b.timestamp_ns ∧ a.sequence_id.toNat ≤ b.sequence_id.toNat) := by
  change tie a ≤ tie b ↔ _
  simp only [tie, Prod.Lex.toLex_le_toLex, UInt32.toNat_inj, UInt64.toNat_inj]

end Key

end Kronos
