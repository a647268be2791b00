/-!
Machine words: a bit-vector of any width is held in a word of 64 bits, of which only the lowest
bits count. A width of 64 or more counts them all.
-/

namespace Symex.Smt

/-- A word of 64 bits. -/
abbrev Word := BitVec 64

namespace Word

/-- Keeps the lowest bits only. -/
def lowBits (v : Word) (width : Nat) : Word := (v.setWidth width).setWidth 64

/-- The integer that the lowest bits denote in two's complement. Without a width, and at the full
width, the whole word is read. -/
def signed (v : Word) (width : Nat) : Int :=
  if width = 0 ∨ 64 ≤ width then v.toInt else (v.setWidth width).toInt

theorem lowBits_of_ge {width : Nat} (h : 64 ≤ width) (v : Word) : lowBits v width = v := by
  apply BitVec.eq_of_toNat_eq
  have hv : v.toNat < 2 ^ width := Nat.lt_of_lt_of_le v.isLt (Nat.pow_le_pow_right (by decide) h)
  simp only [lowBits, BitVec.toNat_setWidth]
  rw [Nat.mod_eq_of_lt hv, Nat.mod_eq_of_lt v.isLt]

theorem toNat_lowBits {width : Nat} (h : width ≤ 64) (v : Word) :
    (lowBits v width).toNat = (v.setWidth width).toNat := by
  rw [lowBits, BitVec.toNat_setWidth_of_le h]

end Word

end Symex.Smt
