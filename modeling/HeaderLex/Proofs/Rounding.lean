import HeaderLex.Number.Binary
import Mathlib.Data.Nat.Log
import Mathlib.Tactic.Ring

/-!
# Whole numbers are rounded to themselves

A binary format has a whole number if some significand of the format, at a power of two that is not
beyond the largest one, is this number.  The unit that a rounding chooses is never coarser than this
power of two, so that nothing is lost.

* `Format.Has`             the whole numbers of a format;
* `Binary.IsWhole`         a significand and an exponent that make a whole number;
* `unitExponent_le`        the unit is fine enough;
* `round_whole`            rounding a quotient that is a number of the format gives this number.
-/

namespace HeaderLex.Number

/-! ## whole numbers -/

/-- The number is a significand of the format at a power of two up to the largest one. -/
def Format.Has (f : Format) (n : Nat) : Prop :=
  ∃ k e : Nat, k < 2 ^ f.precision ∧ e ≤ f.height ∧ n = k * 2 ^ e

namespace Binary

/-- The magnitude `m * 2 ^ e` is the whole number `n`. -/
def IsWhole (m : Nat) (e : Int) (n : Nat) : Prop := m * 2 ^ e.toNat = n * 2 ^ (-e).toNat

variable {m n : Nat} {e : Int}

/-- A whole magnitude has itself as its integer part, and no fraction. -/
theorem IsWhole.parts (h : IsWhole m e n) : integerPart m e = n ∧ isIntegral m e = true := by
  unfold integerPart isIntegral
  unfold IsWhole at h
  by_cases he : 0 ≤ e
  · rw [Int.toNat_of_nonpos (by omega : -e ≤ 0), Nat.pow_zero, Nat.mul_one] at h
    rw [if_pos he, decide_eq_true he]
    exact ⟨h, rfl⟩
  · rw [Int.toNat_of_nonpos (by omega : e ≤ 0), Nat.pow_zero, Nat.mul_one] at h
    rw [if_neg he, h, decide_eq_false he, Bool.false_or]
    exact ⟨Nat.mul_div_cancel n (Nat.two_pow_pos _), beq_iff_eq.2 (Nat.mul_mod_left _ _)⟩

/-- A significand of all the bits and one is half of it at the next exponent. -/
theorem IsWhole.carry {p : Nat} (h : IsWhole (2 ^ (p + 1)) e n) : IsWhole (2 ^ p) (e + 1) n := by
  unfold IsWhole at *
  by_cases he : 0 ≤ e
  · rw [Int.toNat_of_nonpos (by omega : -e ≤ 0)] at h
    rw [Int.toNat_of_nonpos (by omega : -(e + 1) ≤ 0), ← h,
      show (e + 1).toNat = e.toNat + 1 by omega, pow_succ, pow_succ]
    ring
  · rw [Int.toNat_of_nonpos (by omega : e ≤ 0), Nat.pow_zero, Nat.mul_one,
      show (-e).toNat = (-(e + 1)).toNat + 1 by omega, pow_succ, pow_succ, ← Nat.mul_assoc] at h
    rw [Int.toNat_of_nonpos (by omega : e + 1 ≤ 0), Nat.pow_zero, Nat.mul_one]
    exact Nat.eq_of_mul_eq_mul_right (by decide) h

theorem IsWhole.exponent_lt {p E : Nat} (h : IsWhole (2 ^ p) e n) (hlt : n < 2 ^ (p + E)) :
    e < E := by
  unfold IsWhole at h
  have hbits : 2 ^ (p + e.toNat) < 2 ^ (p + E + (-e).toNat) := by
    calc 2 ^ (p + e.toNat) = n * 2 ^ (-e).toNat := by rw [pow_add, h]
      _ < 2 ^ (p + E) * 2 ^ (-e).toNat := Nat.mul_lt_mul_of_pos_right hlt (Nat.two_pow_pos _)
      _ = 2 ^ (p + E + (-e).toNat) := (pow_add ..).symm
  have hexp := (Nat.pow_lt_pow_iff_right (by decide)).1 hbits
  omega

end Binary

/-! ## roundings -/

namespace Format

open Binary (IsWhole)

variable {f : Format} {n b m E : Nat} {e : Int}

theorem roundQuotient_mul (m : Nat) {d : Nat} (hd : 0 < d) : roundQuotient (m * d) d = m := by
  unfold roundQuotient
  dsimp only
  rw [Nat.mul_mod_left, if_pos (by omega), Nat.mul_div_cancel m hd]

theorem scale_eq (a b : Nat) (e : Int) :
    scale a b e = (a * 2 ^ (-e).toNat, b * 2 ^ e.toNat) := by
  unfold scale
  by_cases he : 0 ≤ e
  · rw [if_pos he, Int.toNat_of_nonpos (by omega : -e ≤ 0), Nat.pow_zero, Nat.mul_one]
    rfl
  · rw [if_neg he, Int.toNat_of_nonpos (by omega : e ≤ 0), Nat.pow_zero, Nat.mul_one]
    rfl

/-- Counted in units that divide it, a whole number is rounded to the count. -/
theorem roundQuotient_scale (hb : 0 < b) (h : IsWhole m e n) :
    roundQuotient (scale (n * b) b e).1 (scale (n * b) b e).2 = m := by
  have hnum : n * b * 2 ^ (-e).toNat = m * (b * 2 ^ e.toNat) := by
    calc n * b * 2 ^ (-e).toNat = n * 2 ^ (-e).toNat * b := by ring
      _ = m * 2 ^ e.toNat * b := by rw [h]
      _ = m * (b * 2 ^ e.toNat) := by ring
  rw [scale_eq]
  dsimp only
  rw [hnum]
  exact roundQuotient_mul m (Nat.mul_pos hb (Nat.two_pow_pos _))

/-- The unit of a quotient is not coarser than one whose significands reach beyond the quotient. -/
theorem unitExponent_le (hb : 0 < b) (hn : n ≠ 0) (hlt : n < 2 ^ (f.precision + E)) :
    f.unitExponent (n * b) b ≤ E := by
  have hguess : (Nat.log2 (n * b) : Int) - Nat.log2 b - f.precision ≤ E := by
    have hlow : 2 ^ Nat.log2 (n * b) ≤ n * b := Nat.log2_self_le (Nat.mul_ne_zero hn (by omega))
    have hhigh : n * b < 2 ^ (f.precision + E) * 2 ^ (Nat.log2 b + 1) :=
      Nat.mul_lt_mul_of_lt_of_lt hlt Nat.lt_log2_self
    rw [← pow_add] at hhigh
    have hexp := (Nat.pow_lt_pow_iff_right (by decide)).1 (hlow.trans_lt hhigh)
    omega
  unfold unitExponent
  dsimp only
  generalize (Nat.log2 (n * b) : Int) - Nat.log2 b - f.precision = g at hguess
  rw [scale_eq]
  dsimp only
  split
  · omega
  · next hbig =>
    -- the guess leaves too many units, so it is finer than the given one
    have hunits : b * 2 ^ (g.toNat + f.precision) < b * 2 ^ (f.precision + E + (-g).toNat) := by
      calc b * 2 ^ (g.toNat + f.precision) = b * 2 ^ g.toNat * 2 ^ f.precision := by ring
        _ ≤ n * b * 2 ^ (-g).toNat := Nat.le_of_not_lt hbig
        _ = b * (n * 2 ^ (-g).toNat) := by ring
        _ < b * (2 ^ (f.precision + E) * 2 ^ (-g).toNat) :=
          Nat.mul_lt_mul_of_pos_left (Nat.mul_lt_mul_of_pos_right hlt (Nat.two_pow_pos _)) hb
        _ = b * 2 ^ (f.precision + E + (-g).toNat) := by ring
    have hexp := (Nat.pow_lt_pow_iff_right (by decide)).1 (Nat.lt_of_mul_lt_mul_left hunits)
    omega

/-- In finer units a whole number has a whole count. -/
theorem exists_isWhole {k : Nat} (hn : n = k * 2 ^ E) (he : e ≤ E) : ∃ m, IsWhole m e n := by
  refine ⟨k * 2 ^ (E - e).toNat, ?_⟩
  unfold Binary.IsWhole
  rw [hn, Nat.mul_assoc, Nat.mul_assoc, ← pow_add, ← pow_add,
    show (E - e).toNat + e.toNat = E + (-e).toNat by omega]

/-- A quotient that is a whole number of the format is rounded to this number. -/
theorem round_whole (negative : Bool) (hb : 0 < b) (h : f.Has n) :
    ∃ m e, f.round negative (n * b) b = .finite negative m e ∧ IsWhole m e n := by
  obtain ⟨k, E, hk, hE, hn⟩ := h
  unfold round
  by_cases hzero : n = 0
  · rw [if_pos (by rw [hzero, Nat.zero_mul])]
    exact ⟨_, _, rfl, by rw [hzero, IsWhole, Nat.zero_mul, Nat.zero_mul]⟩
  have hlt : n < 2 ^ (f.precision + E) := by
    rw [hn, pow_add]
    exact Nat.mul_lt_mul_of_pos_right hk (Nat.two_pow_pos E)
  have hunit := unitExponent_le hb hzero hlt
  rw [if_neg (Nat.mul_ne_zero hzero (by omega))]
  dsimp only
  generalize f.unitExponent (n * b) b = e at hunit
  obtain ⟨m, hm⟩ := exists_isWhole hn hunit
  rw [roundQuotient_scale hb hm]
  split
  · next hfull =>
    rw [show m = 2 ^ f.precision from hfull] at hm
    have hfiner : e < E := hm.exponent_lt hlt
    obtain ⟨p, hp⟩ : ∃ p, f.precision = p + 1 := by
      refine Nat.exists_eq_succ_of_ne_zero fun hp => hzero ?_
      rw [hp, Nat.pow_zero] at hk
      rw [hn, Nat.lt_one_iff.1 hk, Nat.zero_mul]
    rw [if_neg (by omega)]
    refine ⟨_, _, rfl, ?_⟩
    rw [hp] at hm ⊢
    exact hm.carry
  · rw [if_neg (by omega)]
    exact ⟨m, e, rfl, hm⟩

end Format

end HeaderLex.Number
