import Mathlib.Data.Int.ModEq
import Symex.Proofs.Meaning

/-!
Arithmetic in two's complement. A pattern of a width denotes the number of the signed range of that width
that is congruent to it. There is one such number for each pattern and one pattern for each number of the
range. At every width up to that of a word, evaluation of bit-vector terms is arithmetic on these numbers:
sums and complements are taken modulo the power of two, comparisons compare the numbers, and extension
by the sign keeps the number.
-/

namespace Symex

open Smt (Term Value Word Model)

namespace Smt.Word

variable {w : Nat} {v x y : Word} {i j : Int}

/-! ### Patterns and numbers -/

/-- The numbers of a width. -/
def InRange (w : Nat) (i : Int) : Prop := -2 ^ (w - 1) ≤ i ∧ i < 2 ^ (w - 1)

/-- A pattern of a width denotes a number. -/
structure Denotes (w : Nat) (v : Word) (i : Int) : Prop where
  fits : v.toNat < 2 ^ w
  range : InRange w i
  congruent : i ≡ v.toNat [ZMOD 2 ^ w]

theorem two_pow_eq (hw : 0 < w) : (2 : Int) ^ w = 2 * 2 ^ (w - 1) := by
  rw [← pow_succ', Nat.sub_add_cancel hw]

/-- Every number has exactly one in the range that it is congruent to. -/
theorem bmod_eq_iff (hw : 0 < w) : i.bmod (2 ^ w) = j ↔ InRange w j ∧ j ≡ i [ZMOD 2 ^ w] := by
  have hpow := two_pow_eq hw
  rw [Int.bmod_eq_iff (Nat.two_pow_pos w), Int.modEq_comm, Int.modEq_iff_dvd, InRange, and_assoc]
  push_cast
  rw [hpow]
  have hlow : (2 * 2 ^ (w - 1) : Int) / 2 = 2 ^ (w - 1) := by omega
  have hhigh : (2 * 2 ^ (w - 1) + 1 : Int) / 2 = 2 ^ (w - 1) := by omega
  rw [hlow, hhigh]

theorem denotes_iff (hw : 0 < w) (hv : v.toNat < 2 ^ w) :
    v.Denotes w i ↔ (v.toNat : Int).bmod (2 ^ w) = i := by
  rw [bmod_eq_iff hw]
  exact ⟨fun h => ⟨h.range, h.congruent⟩, fun h => ⟨hv, h.1, h.2⟩⟩

/-- **A number has one pattern.** -/
theorem Denotes.pattern_eq (hx : x.Denotes w i) (hy : y.Denotes w i) : x = y := by
  have hmod : x.toNat % 2 ^ w = y.toNat % 2 ^ w := by
    have h := hx.congruent.symm.trans hy.congruent
    exact_mod_cast h
  rw [Nat.mod_eq_of_lt hx.fits, Nat.mod_eq_of_lt hy.fits] at hmod
  exact BitVec.eq_of_toNat_eq hmod

/-- Numbers of a width are numbers of every greater one. -/
theorem InRange.mono {b : Nat} (h : InRange w i) : InRange (w + b) i := by
  have hle : (2 : Int) ^ (w - 1) ≤ 2 ^ (w + b - 1) := by
    exact_mod_cast Nat.pow_le_pow_right (show 0 < 2 by decide) (show w - 1 ≤ w + b - 1 by omega)
  obtain ⟨hlow, hhigh⟩ := h
  exact ⟨by omega, by omega⟩

/-! ### Words as patterns -/

theorem toNat_lowBits_eq_mod (hw : w ≤ 64) (v : Word) : (v.lowBits w).toNat = v.toNat % 2 ^ w := by
  rw [toNat_lowBits hw, BitVec.toNat_setWidth]

theorem signed_eq_bmod (hw : 0 < w) (hw' : w ≤ 64) (v : Word) : v.signed w = (v.toNat : Int).bmod (2 ^ w) := by
  unfold signed
  split
  · obtain rfl : w = 64 := by omega
    exact BitVec.toInt_eq_toNat_bmod v
  · exact BitVec.toInt_setWidth v

/-- **What is read off a pattern as a signed number is the number that it denotes.** -/
theorem signed_eq_iff (hw : 0 < w) (hw' : w ≤ 64) (hv : v.toNat < 2 ^ w) : v.signed w = i ↔ v.Denotes w i := by
  rw [signed_eq_bmod hw hw', denotes_iff hw hv]

theorem lowBits_fits (hw : w ≤ 64) (v : Word) : (v.lowBits w).toNat < 2 ^ w := by
  rw [toNat_lowBits_eq_mod hw]
  exact Nat.mod_lt _ (Nat.two_pow_pos w)

theorem signed_lowBits_ofInt (hw : 0 < w) (hw' : w ≤ 64) (i : Int) :
    (lowBits (.ofInt 64 i) w).signed w = i.bmod (2 ^ w) := by
  rw [signed_eq_bmod hw hw', lowBits_ofInt hw', BitVec.toNat_setWidth_of_le hw', ← BitVec.toInt_eq_toNat_bmod,
    BitVec.toInt_ofInt]

/-- A number of the range is denoted by the lowest bits of its word. -/
theorem InRange.denotes (hw : 0 < w) (hw' : w ≤ 64) (hi : InRange w i) :
    (lowBits (.ofInt 64 i) w).Denotes w i := by
  rw [← signed_eq_iff hw hw' (lowBits_fits hw' _), signed_lowBits_ofInt hw hw', bmod_eq_iff hw]
  exact ⟨hi, Int.ModEq.refl i⟩

/-! ### Masks and shifts -/

theorem lowBits_eq_and (hw : w ≤ 64) (v : Word) : v.lowBits w = v &&& ((1 : Word) <<< w) - 1 := by
  rcases Nat.lt_or_eq_of_le hw with hlt | rfl
  · apply BitVec.eq_of_toNat_eq
    have hone : ((1 : Word) <<< w).toNat = 2 ^ w := by
      rw [BitVec.toNat_shiftLeft, Nat.shiftLeft_eq, show (1 : Word).toNat = 1 from rfl, Nat.one_mul]
      exact Nat.mod_eq_of_lt (Nat.pow_lt_pow_right (by decide) hlt)
    have hmask : ((1 : Word) <<< w - 1).toNat = 2 ^ w - 1 := by
      rw [BitVec.toNat_sub_of_le, hone]
      · rfl
      · rw [BitVec.le_def, hone]
        exact Nat.two_pow_pos w
    rw [toNat_lowBits_eq_mod hw, BitVec.toNat_and, hmask, Nat.and_two_pow_sub_one_eq_mod]
  · -- the one is shifted out of the word, so the mask is all ones
    rw [lowBits_of_ge (Nat.le_refl _)]
    exact BitVec.and_allOnes.symm

theorem signed_eq_shift (hw : 0 < w) (hw' : w ≤ 64) (v : Word) :
    v.signed w = ((v <<< (64 - w)).sshiftRight (64 - w)).toInt := by
  have hpow : (2 : Int) ^ 64 = 2 ^ w * 2 ^ (64 - w) := by
    rw [← pow_add, Nat.add_sub_cancel' hw']
  have hhalf : (2 : Int) ^ (64 - 1) = 2 ^ (w - 1) * 2 ^ (64 - w) := by
    rw [← pow_add]
    congr 1
    omega
  have hpos : (0 : Int) < 2 ^ (64 - w) := Int.pow_pos (by decide)
  obtain ⟨⟨hlow, hhigh⟩, hcongr⟩ := (bmod_eq_iff hw).1 (signed_eq_bmod hw hw' v).symm
  -- shifted up, the number is multiplied and is still in the range of whole words
  have hshift : (v <<< (64 - w)).toInt = v.signed w * 2 ^ (64 - w) := by
    rw [BitVec.toInt_shiftLeft, Nat.shiftLeft_eq, bmod_eq_iff (by decide), InRange, hhalf]
    refine ⟨⟨?_, ?_⟩, ?_⟩
    · rw [← Int.neg_mul]
      exact Int.mul_le_mul_of_nonneg_right hlow hpos.le
    · exact Int.mul_lt_mul_of_pos_right hhigh hpos
    · rw [hpow]
      push_cast
      exact Int.ModEq.mul_right' hcongr
  rw [BitVec.toInt_sshiftRight, Int.shiftRight_eq_div_pow, hshift]
  push_cast
  exact (Int.mul_ediv_cancel _ hpos.ne').symm

end Smt.Word

/-! ### Terms -/

namespace Smt.Model

variable {m : Model} {w : Nat} {a b t : Term} {x y : Word} {i j : Int}

/-- The value of a term is a pattern of a width. -/
structure HasPattern (m : Model) (w : Nat) (t : Term) (v : Word) : Prop where
  eval_eq : m.eval t = .ok (.bitVec v w)
  fits : v.toNat < 2 ^ w

theorem hasPattern_lowBits (hw : w ≤ 64) {v : Word} (h : m.eval t = .ok (.bitVec (v.lowBits w) w)) :
    m.HasPattern w t (v.lowBits w) :=
  ⟨h, Word.lowBits_fits hw v⟩

/-- Sums wrap at the width. -/
theorem HasPattern.bvAdd (hw : w ≤ 64) (ha : m.HasPattern w a x) (hb : m.HasPattern w b y) :
    ∃ z, m.HasPattern w (.bvAdd a b) z ∧ z.toNat = (x.toNat + y.toNat) % 2 ^ w := by
  refine ⟨(x + y).lowBits w, hasPattern_lowBits hw ?_, ?_⟩
  · rw [eval, ha.eval_eq, hb.eval_eq]
    rfl
  · rw [Word.toNat_lowBits_eq_mod hw, BitVec.toNat_add, Nat.mod_mod_of_dvd _ (Nat.pow_dvd_pow 2 hw)]

/-- A pattern and its complement add up to all ones. -/
theorem HasPattern.bvNot (hw : w ≤ 64) (ht : m.HasPattern w t x) :
    ∃ z, m.HasPattern w (.bvNot t) z ∧ x.toNat + z.toNat + 1 = 2 ^ w := by
  refine ⟨Word.lowBits (~~~x) w, hasPattern_lowBits hw ?_, ?_⟩
  · rw [eval, ht.eval_eq]
    rfl
  · have hfits := ht.fits
    rw [Word.toNat_lowBits hw, BitVec.setWidth_not hw, BitVec.toNat_not, BitVec.toNat_setWidth,
      Nat.mod_eq_of_lt hfits]
    omega

theorem HasPattern.bvSlt (hw : 0 < w) (hw' : w ≤ 64) (ha : m.HasPattern w a x) (hb : m.HasPattern w b y)
    (hi : x.Denotes w i) (hj : y.Denotes w j) : m.eval (.bvSlt a b) = .ok (.bool (i < j)) := by
  rw [← Word.signed_eq_iff hw hw' ha.fits] at hi
  rw [← Word.signed_eq_iff hw hw' hb.fits] at hj
  rw [eval, ha.eval_eq, hb.eval_eq, ← hi, ← hj]
  rfl

/-- Extension by the sign keeps the number. -/
theorem HasPattern.signExtend {b : Nat} (hw : 0 < w) (hw' : w + b ≤ 64) (ht : m.HasPattern w t x)
    (hi : x.Denotes w i) : ∃ z, m.HasPattern (w + b) (.signExtend b t) z ∧ z.Denotes (w + b) i := by
  refine ⟨Word.lowBits (.ofInt 64 i) (w + b), hasPattern_lowBits hw' ?_, hi.range.mono.denotes (by omega) hw'⟩
  rw [← (Word.signed_eq_iff hw (by omega) ht.fits).2 hi, eval, ht.eval_eq]
  rfl

/-- Evaluation at a width is arithmetic in two's complement. -/
structure TwosComplement (m : Model) (w : Nat) : Prop where
  bvAdd : ∀ {a b x y}, m.HasPattern w a x → m.HasPattern w b y →
    ∃ z, m.HasPattern w (.bvAdd a b) z ∧ z.toNat = (x.toNat + y.toNat) % 2 ^ w
  bvNot : ∀ {t x}, m.HasPattern w t x → ∃ z, m.HasPattern w (.bvNot t) z ∧ x.toNat + z.toNat + 1 = 2 ^ w
  bvSlt : ∀ {a b x y i j}, m.HasPattern w a x → m.HasPattern w b y → x.Denotes w i → y.Denotes w j →
    m.eval (.bvSlt a b) = .ok (.bool (i < j))
  signExtend : ∀ {b t x i}, w + b ≤ 64 → m.HasPattern w t x → x.Denotes w i →
    ∃ z, m.HasPattern (w + b) (.signExtend b t) z ∧ ∀ z', z'.Denotes (w + b) i ↔ z' = z
  /-- The signed reading of a pattern is the number that it denotes. -/
  signed : ∀ {v i}, v.toNat < 2 ^ w → ((Value.bitVec v w).signed? = some i ↔ v.Denotes w i)
  /-- The signed reading of a number cut to the width is the only one of the range that is congruent to it. -/
  ofInt : ∀ k i, (Value.ofInt k w).signed? = some i ↔ Word.InRange w i ∧ i ≡ k [ZMOD 2 ^ w]
  /-- A mask cuts to the width. -/
  mask : ∀ v : Word, v.lowBits w = v &&& ((1 : Word) <<< w) - 1
  /-- A shift to the top of the word, and one back that repeats the sign, give the number. -/
  shift : ∀ v : Word, v.signed w = ((v <<< (64 - w)).sshiftRight (64 - w)).toInt

theorem twosComplement (m : Model) (hw : 0 < w) (hw' : w ≤ 64) : m.TwosComplement w where
  bvAdd ha hb := ha.bvAdd hw' hb
  bvNot ht := ht.bvNot hw'
  bvSlt ha hb hi hj := ha.bvSlt hw hw' hb hi hj
  signExtend hb ht hi := by
    obtain ⟨z, hz, hdenotes⟩ := ht.signExtend hw hb hi
    refine ⟨z, hz, fun z' => ⟨fun h => h.pattern_eq hdenotes, ?_⟩⟩
    rintro rfl
    exact hdenotes
  signed hv := by rw [← Word.signed_eq_iff hw hw' hv, Value.signed?, Option.some.injEq]
  ofInt k i := by
    rw [Value.ofInt, Value.signed?, Option.some.injEq, Word.signed_lowBits_ofInt hw hw', Word.bmod_eq_iff hw]
  mask := Word.lowBits_eq_and hw'
  shift := Word.signed_eq_shift hw hw'

/-- A word of a type is the pattern of its number. -/
theorem hasPattern_ofInt_toInt {n : Nat} (hn : 0 < n) (hn' : n ≤ 64) (x : BitVec n) :
    ∃ v, m.HasPattern n (.ofInt x.toInt n) v ∧ (Value.bitVec v n).signed? = some x.toInt ∧ v.toNat = x.toNat := by
  refine ⟨Word.lowBits (.ofInt 64 x.toInt) n, hasPattern_lowBits hn' (by rw [Term.ofInt, eval]), ?_, ?_⟩
  · rw [Value.signed?, Word.signed_lowBits_ofInt hn hn', ← BitVec.toInt_ofInt, BitVec.ofInt_toInt]
  · rw [Word.lowBits_ofInt hn', BitVec.ofInt_toInt, BitVec.toNat_setWidth_of_le hn']

theorem literal_hasPattern (m : Model) {s : Scalar} (hs : s.ty ≠ .bool) :
    ∃ v, m.HasPattern s.ty.width (Memory.literal s) v ∧
      (Value.bitVec v s.ty.width).signed? = some s.toInt ∧ v.toNat = s.toBits := by
  cases s with
  | bool b => exact absurd rfl hs
  | char x => exact hasPattern_ofInt_toInt (by decide) (by decide) x
  | short x => exact hasPattern_ofInt_toInt (by decide) (by decide) x
  | int x => exact hasPattern_ofInt_toInt (by decide) (by decide) x

/-- **Bit-vector terms are evaluated in two's complement**, at every width from one bit to a whole word. The
literal of a scalar that is not a boolean has the bits of the scalar as its pattern and denotes its number. -/
theorem eval_in_twosComplement (m : Model) :
    (∀ w, 0 < w → w ≤ 64 → m.TwosComplement w) ∧
    ∀ s : Scalar, s.ty ≠ .bool → ∃ v, m.HasPattern s.ty.width (Memory.literal s) v ∧
      (Value.bitVec v s.ty.width).signed? = some s.toInt ∧ v.toNat = s.toBits :=
  ⟨fun _ hw hw' => m.twosComplement hw hw', fun _ hs => m.literal_hasPattern hs⟩

/-- The lowest byte, twice, is nothing. It is below the greatest, and the same number as a whole word. -/
theorem lowestByte_in_twosComplement :
    (0 < 8 ∧ 8 + 56 ≤ 64) ∧
    (∃ z, ({} : Model).HasPattern 8 (.bvAdd (.ofInt (-128) 8) (.ofInt (-128) 8)) z ∧ z.toNat = 0) ∧
    ({} : Model).eval (.bvSlt (.ofInt (-128) 8) (.ofInt 127 8)) = .ok (.bool true) ∧
    (∃ z, ({} : Model).HasPattern 64 (.signExtend 56 (.ofInt (-128) 8)) z ∧
      ∀ z', z'.Denotes 64 (-128) ↔ z' = z) ∧
    (Scalar.short (-32768)).ty ≠ .bool ∧
    ∃ v, ({} : Model).HasPattern 16 (Memory.literal (.short (-32768))) v ∧
      (Value.bitVec v 16).signed? = some (-32768) ∧ v.toNat = 32768 := by
  obtain ⟨hwidths, hliterals⟩ := eval_in_twosComplement {}
  have hbytes := hwidths 8 (by decide) (by decide)
  have hpattern : ∀ k, ({} : Model).HasPattern 8 (.ofInt k 8) (Word.lowBits (.ofInt 64 k) 8) := fun k =>
    hasPattern_lowBits (by decide) (by rw [Term.ofInt, eval])
  have hlow : (Word.lowBits (.ofInt 64 (-128)) 8).Denotes 8 (-128) := (hbytes.signed (by decide)).1 rfl
  have hhigh : (Word.lowBits (.ofInt 64 127) 8).Denotes 8 127 := (hbytes.signed (by decide)).1 rfl
  exact ⟨by decide, hbytes.bvAdd (hpattern _) (hpattern _), hbytes.bvSlt (hpattern _) (hpattern _) hlow hhigh,
    hbytes.signExtend (b := 56) (by decide) (hpattern _) hlow, by decide,
    hliterals (.short (-32768)) (by decide)⟩

end Smt.Model

end Symex
