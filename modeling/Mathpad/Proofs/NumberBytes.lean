import Mathlib.Algebra.Order.Ring.Int
import Mathlib.Tactic.NormNum
import Mathlib.Tactic.Ring
import Mathpad.Binary.Value
import Mathpad.Proofs.Encoding
import Mathpad.Proofs.NodeValues

/-!
# Numbers in bytes and back

A word of some bytes holds a number up to the power of 256 that it has bytes for, so a smaller
number is read back from it (`Bytes.holds_takeWord`). A signed number is read back from its
remainder, because of all numbers with that remainder it is the one that is nearest to zero.

The first word of a decimal holds two things. The places begin at bit 16 and the sign is bit 31;
as there are less than 256 places, neither gets in the way of the other (`Decimal.testBit_flags`,
`Decimal.places_flags`). A positive exponent cannot be held: the zeros that it stands for are
written behind the digits, and the decimal that is read back has the same value in another form
(`Decimal.spelledOut`). Without such zeros it is read back as it was.
-/
set_option autoImplicit false

namespace Mathpad

namespace Bytes

/-! ## Words -/

/-- A word has as many bytes as it is asked to have. -/
theorem length_ofWord (size n : Nat) : (ofWord size n).length = size := by
  induction size generalizing n with
  | zero => rfl
  | succ size ih => rw [ofWord, List.length_cons, ih]

/-- A word loses what is beyond its last byte, and nothing else. -/
theorem toWord_ofWord (size n : Nat) : toWord (ofWord size n) = n % 256 ^ size := by
  induction size generalizing n with
  | zero => rw [pow_zero, Nat.mod_one]; rfl
  | succ size ih =>
    have hbyte : (UInt8.ofNat (n % 256)).toNat = n % 256 :=
      UInt8.toNat_ofNat_of_lt (Nat.mod_lt n (by norm_num))
    rw [ofWord, toWord, hbyte, ih, pow_succ', Nat.mod_mul]

theorem holds_takeMany_next (bytes : Bytes) : Holds (takeMany next bytes.length) bytes bytes := by
  induction bytes with
  | nil => exact holds_pure []
  | cons b bytes ih => exact (holds_next b).bind (ih.returns (holds_pure _))

/-- What fits a word is read back from it. -/
theorem holds_takeWord {size n : Nat} (h : n < 256 ^ size) :
    Holds (takeWord size) (ofWord size n) n := by
  have hbytes := holds_takeMany_next (ofWord size n)
  rw [length_ofWord] at hbytes
  refine hbytes.returns ?_
  rw [toWord_ofWord, Nat.mod_eq_of_lt h]
  exact holds_pure n

end Bytes

open Bytes (Holds)

/-! ## Decimals -/

namespace Decimal

/-- The decimal has a form in bytes: it has few enough places, and with the zeros of its exponent
written out it is not too large. -/
structure FitsBytes (v : Decimal) : Prop where
  digits : v.digits * 10 ^ v.exponent.toNat ≤ maxMagnitude
  places : -(maxPlaces : Int) ≤ v.exponent

/-- The decimal with the zeros of a positive exponent written out. -/
def spelledOut (v : Decimal) : Decimal :=
  ⟨v.negative, v.digits * 10 ^ v.exponent.toNat, min v.exponent 0⟩

variable {v : Decimal}

/-- A decimal without a positive exponent is spelled out already. -/
theorem spelledOut_of_nonpos (h : v.exponent ≤ 0) : v.spelledOut = v := by
  rw [spelledOut, Int.toNat_of_nonpos h, min_eq_left h]
  simp

/-- Spelling a decimal out keeps its value. -/
theorem value_spelledOut (v : Decimal) : v.spelledOut.value = v.value := by
  rcases le_total v.exponent 0 with h | h
  · rw [spelledOut_of_nonpos h]
  · obtain ⟨k, hk⟩ := Int.eq_ofNat_of_zero_le h
    obtain ⟨negative, digits, exponent⟩ := v
    dsimp only at hk
    rw [spelledOut, value_eq, value_eq, hk, Int.toNat_natCast, min_eq_right (Int.natCast_nonneg k),
      zpow_zero, zpow_natCast]
    push_cast
    ring

/-! ### The word of the places and the sign -/

/-- The places and the sign do not overlap, so they are added. -/
theorem flags_eq (h : (-v.exponent).toNat < 256) :
    v.flags = (if v.negative then 2 ^ 31 else 0) + (-v.exponent).toNat * 2 ^ 16 := by
  have hplaces : (-v.exponent).toNat * 2 ^ 16 < 2 ^ 31 := by omega
  rw [flags]
  by_cases hsign : v.negative = true
  · rw [if_pos hsign, if_pos hsign, Nat.or_comm]
    exact (Nat.two_pow_add_eq_or_of_lt hplaces 1).symm
  · rw [if_neg hsign, if_neg hsign, Nat.zero_add]

theorem flags_lt (h : (-v.exponent).toNat < 256) : v.flags < 2 ^ 32 := by
  rw [flags_eq h]
  split <;> omega

/-- The highest of the flags is the sign. -/
theorem testBit_flags (h : (-v.exponent).toNat < 256) : v.flags.testBit 31 = v.negative := by
  rw [flags_eq h]
  cases v.negative with
  | true =>
    rw [if_pos rfl, Nat.testBit_two_pow_add_eq, Nat.testBit_lt_two_pow (by omega)]
    rfl
  | false =>
    rw [if_neg Bool.false_ne_true, Nat.zero_add]
    exact Nat.testBit_lt_two_pow (by omega)

/-- The third byte of the flags is the number of places. -/
theorem places_flags (h : (-v.exponent).toNat < 256) :
    v.flags / 2 ^ 16 % 256 = (-v.exponent).toNat := by
  rw [flags_eq h]
  split <;> omega

/-- A decimal is read back, with its zeros written out. -/
theorem toBytes_holds (h : v.FitsBytes) :
    Meets v.toBytes (fun bytes => Holds take bytes v.spelledOut) fun _ => False := by
  have hplaces : (-v.exponent).toNat < 256 := by
    have hle := h.places
    rw [maxPlaces] at hle
    omega
  have hflags := flags_lt hplaces
  have hdigits : v.digits * 10 ^ v.exponent.toNat < 256 ^ 12 :=
    lt_of_le_of_lt h.digits (by decide)
  have hexponent : -((v.flags / 2 ^ 16 % 256 : Nat) : Int) = min v.exponent 0 := by
    rw [places_flags hplaces]
    omega
  rw [toBytes, if_neg (Nat.not_le.mpr hflags)]
  refine (Bytes.holds_takeWord hflags).bind ((Bytes.holds_takeWord hdigits).returns ?_)
  rw [testBit_flags hplaces, hexponent]
  exact Bytes.holds_pure _

end Decimal

theorem Accuracy.holds_take (a : Accuracy) : Holds take [a.code] a := by
  cases a <;> exact fun _ => rfl

/-! ## Numbers -/

namespace Number

/-- The number has a form in bytes: the parts of a fraction are words, whatever they are, and a
decimal is not too large and has not too many places. -/
def FitsBytes : Number → Prop
  | ratio n d => isWord n = true ∧ isWord d = true
  | decimal v _ => v.FitsBytes

/-- One number is as good as another one: it is a fraction of the same parts, or a decimal of the
same value, sign and tag. Unless the zeros of an exponent had to be written out, the decimals have
the same digits and places too. -/
inductive ReadAs : Number → Number → Prop
  | ratio (n d : Int) : ReadAs (ratio n d) (ratio n d)
  | decimal {v w : Decimal} (a : Accuracy) (value : w.value = v.value)
      (sign : w.negative = v.negative) (form : v.exponent ≤ 0 → w = v) :
      ReadAs (decimal v a) (decimal w a)

/-- A signed word is read back: it is the number nearest to zero of those with its remainder. -/
theorem wordBytes_holds {n : Int} (h : isWord n = true) :
    Meets (wordBytes n) (fun bytes => Holds takeSigned bytes n) fun _ => False := by
  have hrange : -2 ^ 63 ≤ n ∧ n < 2 ^ 63 := by
    unfold isWord maxWord at h
    rw [Bool.and_eq_true, decide_eq_true_iff, decide_eq_true_iff] at h
    norm_num at h ⊢
    omega
  have hremainder : ((n % 2 ^ 64).toNat : Int) = n % 2 ^ 64 := by omega
  have hbytes : (n % 2 ^ 64).toNat < 256 ^ 8 := by norm_num; omega
  rw [wordBytes, if_pos h]
  refine (Bytes.holds_takeWord hbytes).returns ?_
  have hback : Int.bmod ((n % 2 ^ 64).toNat : Int) (2 ^ 64) = n := by
    rw [hremainder]
    refine (Int.emod_bmod (x := n) (n := 2 ^ 64)).trans (Int.bmod_eq_of_le ?_ ?_) <;> omega
  rw [hback]
  exact Bytes.holds_pure n

/-- A number that has a form in bytes is written, and whatever bytes follow, reading gives it back
and leaves them alone. -/
theorem exists_readAs (x : Number) (h : x.FitsBytes) :
    ∃ bytes y, x.toBytes = .ok bytes ∧ x.ReadAs y ∧
      ∀ rest, take (bytes ++ rest) = some (y, rest) := by
  cases x with
  | ratio n d =>
    obtain ⟨num, hnum, hn⟩ := (wordBytes_holds h.1).exists_ok
    obtain ⟨den, hden, hd⟩ := (wordBytes_holds h.2).exists_ok
    refine ⟨2 :: num ++ den, .ratio n d, ?_, .ratio n d, ?_⟩
    · rw [toBytes, hnum, ok_bind, hden]
      rfl
    · exact Holds.next_bind (hn.bind (hd.returns (Bytes.holds_pure _)))
  | decimal v a =>
    obtain ⟨bytes, hbytes, hv⟩ := (Decimal.toBytes_holds h).exists_ok
    refine ⟨1 :: bytes ++ [a.code], .decimal v.spelledOut a, ?_, ?_, ?_⟩
    · rw [toBytes, hbytes]
      rfl
    · exact .decimal a (Decimal.value_spelledOut v) rfl Decimal.spelledOut_of_nonpos
    · exact Holds.next_bind (hv.bind (a.holds_take.returns (Bytes.holds_pure _)))

/-- The negative decimal of greatest magnitude among those with a positive exponent. -/
theorem exists_readAs_largest :
    (decimal ⟨true, 7922816251426433759354395033, 1⟩ .approximate).FitsBytes ∧
      ∃ bytes y, (decimal ⟨true, 7922816251426433759354395033, 1⟩ .approximate).toBytes = .ok bytes ∧
        (decimal ⟨true, 7922816251426433759354395033, 1⟩ .approximate).ReadAs y ∧
        ∀ rest, take (bytes ++ rest) = some (y, rest) := by
  have h : (decimal ⟨true, 7922816251426433759354395033, 1⟩ .approximate).FitsBytes :=
    ⟨by decide, by decide⟩
  exact ⟨h, exists_readAs _ h⟩

end Number
end Mathpad
