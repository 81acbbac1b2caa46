import Mathpad.Proofs.HalfEven
import Mathpad.Proofs.PlainNotation
import Mathpad.Proofs.Representable
import Mathpad.Proofs.WholePowers

/-!
# Runs of noise

Noise is looked for among the digits behind the point, and the first run that is long enough is
where a decimal is cut off. What is cut off behind a run of `n` zeros is less than one unit of the
last of them, and as much is missing behind a run of `n` nines to the next unit of the last place
that is kept. So a decimal moves by no more than a unit in the last place of the run
(`Decimal.denoise_near`), and the digits that are kept with the one that is carried are fewer than
before, so that nothing is rounded.
-/
set_option autoImplicit false

namespace Mathpad

/-! ## Runs in a text -/

/-- The digit that a run consists of. -/
def noiseDigit (nines : Bool) : Char := if nines then '9' else '0'

/-- Behind the first `k` of the digits `cs` come at least `n` zeros, or at least `n` nines. -/
def RunAt (n : Nat) (cs : List Char) (k : Nat) (nines : Bool) : Prop :=
  List.replicate n (noiseDigit nines) <+: cs.drop k

/-- The leftmost run comes behind the first `k` digits. -/
def FirstRun (n : Nat) (cs : List Char) (k : Nat) (nines : Bool) : Prop :=
  RunAt n cs k nines ∧ ∀ j < k, ∀ b, ¬RunAt n cs j b

instance (n : Nat) (cs : List Char) (k : Nat) (nines : Bool) : Decidable (RunAt n cs k nines) :=
  inferInstanceAs (Decidable (_ <+: _))

instance (n : Nat) (cs : List Char) (k : Nat) (nines : Bool) : Decidable (FirstRun n cs k nines) :=
  inferInstanceAs (Decidable (_ ∧ _))

variable {n k start : Nat} {cs : List Char} {nines : Bool}

/-- A run is at least `n` characters long if the text begins with that many. -/
theorem le_runLength_iff (n : Nat) (c : Char) (cs : List Char) :
    n ≤ runLength c cs ↔ List.replicate n c <+: cs := by
  induction cs generalizing n with
  | nil => simp [runLength]
  | cons d cs ih =>
    cases n with
    | zero => simp
    | succ n =>
      rw [List.replicate_succ, List.cons_prefix_cons, ← ih]
      by_cases hd : d = c
      · simp [runLength, hd]
      · have hc : ¬c = d := fun h => hd h.symm
        simp [runLength, hd, hc]

theorem not_runAt_nil (hn : n ≠ 0) : ¬RunAt n [] k nines := by
  simp [RunAt, hn]

/-- A run has all its digits. -/
theorem RunAt.add_le (h : RunAt n cs k nines) (hn : n ≠ 0) : k + n ≤ cs.length := by
  have hlength := h.length_le
  rw [List.length_replicate, List.length_drop] at hlength
  omega

/-- In front of a run stand as many digits as its place says. -/
theorem RunAt.length_take (h : RunAt n cs k nines) (hn : n ≠ 0) : (cs.take k).length = k :=
  List.length_take_of_le ((Nat.le_add_right k n).trans (h.add_le hn))

/-- Zeros and nines do not begin at the same place. -/
theorem RunAt.unique {b : Bool} (h : RunAt n cs k nines) (h' : RunAt n cs k b) (hn : n ≠ 0) :
    nines = b := by
  obtain ⟨m, rfl⟩ := Nat.exists_eq_succ_of_ne_zero hn
  obtain ⟨rest, hrest⟩ := h
  obtain ⟨rest', hrest'⟩ := h'
  rw [← hrest, List.replicate_succ, List.replicate_succ] at hrest'
  have hdigit := (List.cons.inj hrest').1
  revert hdigit
  cases nines <;> cases b <;> decide

/-- What comes before a run, the run, and what comes behind it. -/
theorem RunAt.exists_split (h : RunAt n cs k nines) :
    ∃ more, cs = cs.take k ++ (List.replicate n (noiseDigit nines) ++ more) := by
  obtain ⟨more, hmore⟩ := h
  exact ⟨more, by rw [hmore, List.take_append_drop]⟩

theorem findRun_of_none (hn : n ≠ 0) (h : ∀ k b, ¬RunAt n cs k b) (start : Nat) :
    findRun n cs start = none := by
  induction cs generalizing start with
  | nil => rw [findRun, if_neg hn]
  | cons c cs ih =>
    have hzeros : ¬n ≤ runLength '0' (c :: cs) := fun hle =>
      h 0 false ((le_runLength_iff ..).mp hle)
    have hnines : ¬n ≤ runLength '9' (c :: cs) := fun hle =>
      h 0 true ((le_runLength_iff ..).mp hle)
    rw [findRun, if_neg hzeros, if_neg hnines]
    exact ih (fun k b => h (k + 1) b) _

/-- The leftmost run is found. -/
theorem findRun_of_firstRun (hn : n ≠ 0) (h : FirstRun n cs k nines) (start : Nat) :
    findRun n cs start = some (start + k, nines) := by
  induction cs generalizing k start with
  | nil => exact absurd h.1 (not_runAt_nil hn)
  | cons c cs ih =>
    have hzeros : n ≤ runLength '0' (c :: cs) ↔ RunAt n (c :: cs) 0 false := le_runLength_iff ..
    have hnines : n ≤ runLength '9' (c :: cs) ↔ RunAt n (c :: cs) 0 true := le_runLength_iff ..
    obtain ⟨hrun, hfirst⟩ := h
    rw [findRun]
    -- the scan stops at the head if and only if the first run is there
    cases k with
    | zero =>
      cases nines with
      | false => rw [if_pos (hzeros.mpr hrun), Nat.add_zero]
      | true =>
        rw [if_neg fun hle => absurd (hrun.unique (hzeros.mp hle) hn) (by decide),
          if_pos (hnines.mpr hrun), Nat.add_zero]
    | succ k =>
      rw [if_neg fun hle => hfirst 0 k.succ_pos _ (hzeros.mp hle),
        if_neg fun hle => hfirst 0 k.succ_pos _ (hnines.mp hle),
        ih ⟨hrun, fun j hj b => hfirst (j + 1) (Nat.succ_lt_succ hj) b⟩, Nat.add_assoc,
        Nat.add_comm 1]

/-- There is a first run, unless there is none. -/
theorem none_or_exists_firstRun (n : Nat) (cs : List Char) :
    (∀ k b, ¬RunAt n cs k b) ∨ ∃ k nines, FirstRun n cs k nines := by
  classical
  by_cases hsome : ∃ k, ∃ b, RunAt n cs k b
  · obtain ⟨nines, hrun⟩ := Nat.find_spec hsome
    exact .inr ⟨Nat.find hsome, nines, hrun, fun j hj b hb => Nat.find_min hsome hj ⟨b, hb⟩⟩
  · exact .inl fun k b hrun => hsome ⟨k, b, hrun⟩

/-! ## Decimals -/

namespace Decimal

/-- The digits behind the point. -/
def places (v : Decimal) : List Char := v.splitAtPoint.2

/-- What is kept in front of a run as a whole number of units of its last place, with one more in
front of nines. -/
def keptUnits (kept : List Char) (nines : Bool) : Nat := digitsValue kept + nines.toNat

variable {v : Decimal} {whole ps : List Char}

theorem SplitsAt.places_eq (h : v.SplitsAt whole ps) : v.places = ps := by
  rw [places, h.split]

/-- Nines are one less than a power of ten. -/
theorem digitsValue_nines (n : Nat) : digitsValue (List.replicate n '9') + 1 = 10 ^ n := by
  induction n with
  | zero => rfl
  | succ n ih =>
    rw [List.replicate_succ, digitsValue_cons, List.length_replicate, Nat.add_assoc, ih, pow_succ,
      show '9'.toNat - 48 = 9 from rfl]
    ring

/-- What is cut off with a run of zeros, and what is missing behind a run of nines. -/
theorem keptUnits_bounds (hsplit : v.SplitsAt whole ps) (hn : n ≠ 0) (hrun : RunAt n ps k nines) :
    ∃ m : Nat, v.exponent = -((k + n + m : Nat) : Int) ∧
      digitsValue (whole ++ ps.take k) * 10 ^ (n + m) ≤ v.digits ∧
      (nines = false → v.digits < keptUnits (whole ++ ps.take k) nines * 10 ^ (n + m) + 10 ^ m) ∧
      (nines = true → v.digits < keptUnits (whole ++ ps.take k) nines * 10 ^ (n + m) ∧
        keptUnits (whole ++ ps.take k) nines * 10 ^ (n + m) ≤ v.digits + 10 ^ m) := by
  have hle := hrun.add_le hn
  have hlength := hsplit.length_places
  have hexp : v.exponent.toNat = 0 := by omega
  obtain ⟨more, hmore⟩ := hrun.exists_split
  have hkept := hrun.length_take hn
  generalize ps.take k = kept at hmore hkept ⊢
  -- the digits are those that are kept, the run, and `m` more, which are less than `10 ^ m`
  have hcount : ps.length = k + n + more.length := by
    rw [hmore, List.length_append, List.length_append, List.length_replicate, hkept]
    omega
  have hlt : digitsValue more < 10 ^ more.length := by
    refine digitsValue_lt fun c hc => hsplit.digits c (List.mem_append_right _ ?_)
    rw [hmore]
    simp [hc]
  have hvalue := hsplit.value
  rw [hexp, pow_zero, mul_one, hmore, ← List.append_assoc, digitsValue_append (whole ++ kept),
    digitsValue_append (List.replicate _ _), List.length_append, List.length_replicate] at hvalue
  refine ⟨more.length, by omega, by omega, ?_, ?_⟩
  · rintro rfl
    rw [show noiseDigit false = '0' from rfl, digitsValue_zeros] at hvalue
    rw [keptUnits, Bool.toNat_false, Nat.add_zero]
    omega
  · rintro rfl
    -- the nines are one short of a unit in the last place that is kept
    have hunit : (digitsValue (List.replicate n '9') + 1) * 10 ^ more.length =
        10 ^ (n + more.length) := by
      rw [digitsValue_nines, pow_add]
    rw [show noiseDigit true = '9' from rfl] at hvalue
    rw [keptUnits, Bool.toNat_true, Nat.add_mul]
    rw [Nat.add_mul] at hunit
    omega

/-- A decimal that is not too long has a digit less in front of a run. -/
theorem keptUnits_le (hv : digitCount v.digits ≤ precision) (hsplit : v.SplitsAt whole ps)
    (hn : n ≠ 0) (hrun : RunAt n ps k nines) : keptUnits (whole ++ ps.take k) nines ≤ 10 ^ 27 := by
  obtain ⟨m, -, hcut, -⟩ := keptUnits_bounds hsplit hn hrun
  obtain ⟨j, hj⟩ : ∃ j, n + m = j + 1 := ⟨n + m - 1, by omega⟩
  have hlt : v.digits < 10 ^ 28 := lt_pow_of_digitCount_le hv
  have hten : digitsValue (whole ++ ps.take k) * 10 ≤
      digitsValue (whole ++ ps.take k) * 10 ^ (j + 1) :=
    Nat.mul_le_mul_left _ (Nat.le_self_pow j.succ_ne_zero 10)
  rw [hj] at hcut
  have hflag := nines.toNat_le
  unfold keptUnits
  omega

/-- Without noise there is nothing to take away. -/
theorem denoise_of_none (hv : digitCount v.digits ≤ precision) (hn : n ≠ 0)
    (h : ∀ k b, ¬RunAt n v.places k b) : v.denoise n = v := by
  have hnone : findRun n (⟨false, v.digits, v.exponent⟩ : Decimal).splitAtPoint.2 0 = none :=
    findRun_of_none hn h 0
  unfold denoise
  simp only [magnitude_of_digitCount_le hv, if_neg (Int.not_lt.mpr (Int.natCast_nonneg n)),
    Int.toNat_natCast, hnone]

/-- A decimal is cut off at its first run, and the digits that are left need no rounding. -/
theorem denoise_of_firstRun (hv : digitCount v.digits ≤ precision) (hn : n ≠ 0)
    (hsplit : v.SplitsAt whole ps) (hrun : FirstRun n ps k nines) :
    v.denoise n = if keptUnits (whole ++ ps.take k) nines = 0 then zero
      else ⟨v.isBelowZero, keptUnits (whole ++ ps.take k) nines, -(k : Int)⟩ := by
  have hsplit' : (⟨false, v.digits, v.exponent⟩ : Decimal).splitAtPoint = (whole, ps) :=
    hsplit.split
  have hkept := hrun.1.length_take hn
  obtain ⟨m, hm⟩ : ∃ m, m = keptUnits (whole ++ ps.take k) nines := ⟨_, rfl⟩
  have hfew : digitCount m ≤ precision := by
    refine digitCount_le (by decide)
      (lt_of_le_of_lt (hm.le.trans (keptUnits_le hv hsplit hn hrun.1)) ?_)
    decide
  have hraised : (if nines then
      ((⟨false, digitsValue (whole ++ ps.take k), -(k : Int)⟩ : Decimal).add
        ⟨false, 1, -(k : Int)⟩).round precision
      else ⟨false, digitsValue (whole ++ ps.take k), -(k : Int)⟩) = ⟨false, m, -(k : Int)⟩ := by
    cases nines with
    | false => rw [hm, keptUnits, Bool.toNat_false, Nat.add_zero, if_neg Bool.false_ne_true]
    | true =>
      rw [keptUnits, Bool.toNat_true] at hm
      rw [if_pos rfl, add_last_place, ← hm]
      exact round_of_digitCount_le hfew
  -- what is left to see is that the sign goes where it was, and none is put on a zero
  unfold denoise
  simp only [magnitude_of_digitCount_le hv, hsplit', if_neg (Int.not_lt.mpr (Int.natCast_nonneg n)),
    Int.toNat_natCast, findRun_of_firstRun hn hrun, Nat.zero_add, hkept, hraised, ← hm]
  by_cases hzero : m = 0
  · cases v.isBelowZero <;> simp [hzero, negate]
  · have hflip : (⟨false, m, -(k : Int)⟩ : Decimal).negate precision = ⟨true, m, -(k : Int)⟩ := by
      rw [negate, if_neg hzero]
      exact round_of_digitCount_le hfew
    cases v.isBelowZero <;> simp [hzero, hflip]

/-! ## How far a decimal moves -/

/-- Where a run is found, what is left has the value of the digits that are kept. -/
theorem value_denoise (hv : digitCount v.digits ≤ precision) (hn : n ≠ 0)
    (hsplit : v.SplitsAt whole ps) (hrun : FirstRun n ps k nines) :
    (v.denoise n).value = (if v.isBelowZero then -1 else 1) *
      (keptUnits (whole ++ ps.take k) nines * 10 ^ (-(k : ℤ))) := by
  rw [denoise_of_firstRun hv hn hsplit hrun]
  split
  · next hzero =>
    rw [hzero, value_eq_zero rfl]
    simp
  · rw [value_eq, mul_assoc]

/-- The kept units are below the magnitude in front of zeros and above it in front of nines, and in
both cases near it. -/
theorem keptUnits_near (hsplit : v.SplitsAt whole ps) (hn : n ≠ 0) (hrun : RunAt n ps k nines) :
    |keptUnits (whole ++ ps.take k) nines * 10 ^ (-(k : ℤ)) - (|v.value|)| ≤
        10 ^ (-((k + n : ℕ) : ℤ)) ∧
      (nines = false → keptUnits (whole ++ ps.take k) nines * 10 ^ (-(k : ℤ)) ≤ |v.value|) ∧
      (nines = true → |v.value| < keptUnits (whole ++ ps.take k) nines * 10 ^ (-(k : ℤ))) := by
  obtain ⟨m, hexp, hcut, hzeros, hnines⟩ := keptUnits_bounds hsplit hn hrun
  generalize hunits : keptUnits (whole ++ ps.take k) nines = units at hzeros hnines ⊢
  have hpos : (0 : ℚ) < 10 ^ (k + n + m) := by positivity
  have hvalue : |v.value| = v.digits / 10 ^ (k + n + m) := by
    rw [abs_value, hexp, zpow_neg, zpow_natCast, div_eq_mul_inv]
  have hscaled : (units : ℚ) * 10 ^ (-(k : ℤ)) = units * 10 ^ (n + m) / 10 ^ (k + n + m) := by
    rw [zpow_neg, zpow_natCast, Nat.add_assoc, pow_add 10 k]
    field_simp
  have hunit : (10 : ℚ) ^ (-((k + n : ℕ) : ℤ)) = 10 ^ m / 10 ^ (k + n + m) := by
    rw [zpow_neg, zpow_natCast, pow_add 10 (k + n)]
    field_simp
  -- everything over one power of ten, so that integers are left to compare
  rw [hvalue, hscaled, hunit, ← sub_div, abs_div, abs_of_pos hpos, div_le_div_iff_of_pos_right hpos,
    div_le_div_iff_of_pos_right hpos, div_lt_div_iff_of_pos_right hpos]
  cases nines with
  | false =>
    have hlow : (units : ℚ) * 10 ^ (n + m) ≤ v.digits := by
      rw [← hunits, keptUnits, Bool.toNat_false, Nat.add_zero]
      exact_mod_cast hcut
    have hhigh : (v.digits : ℚ) < units * 10 ^ (n + m) + 10 ^ m := by exact_mod_cast hzeros rfl
    refine ⟨?_, fun _ => hlow, fun h => absurd h (by decide)⟩
    rw [abs_sub_comm, abs_of_nonneg (sub_nonneg.mpr hlow)]
    linarith
  | true =>
    have hlow : (v.digits : ℚ) < units * 10 ^ (n + m) := by exact_mod_cast (hnines rfl).1
    have hhigh : (units : ℚ) * 10 ^ (n + m) ≤ v.digits + 10 ^ m := by exact_mod_cast (hnines rfl).2
    refine ⟨?_, fun h => absurd h (by decide), fun _ => hlow⟩
    rw [abs_of_pos (sub_pos.mpr hlow)]
    linarith

/-- The decimal `r` is `v` without the noise behind its first `k` places, where a run of `n` begins.
In front of zeros it is not further from zero than `v`, and in front of nines it is further. -/
structure IsCleared (v r : Decimal) (n k : Nat) (nines : Bool) : Prop where
  places : -(k : Int) ≤ r.exponent
  near : |r.value - v.value| ≤ 10 ^ (-((k + n : ℕ) : ℤ))
  zeros : nines = false → |r.value| ≤ |v.value|
  nines : nines = true → |v.value| < |r.value|
  sign : r = zero ∨ r.value ≠ 0 ∧ SignType.sign r.value = SignType.sign v.value

/-- Where a run is found, clearing it does what this module calls clearing. -/
theorem denoise_isCleared (hv : digitCount v.digits ≤ precision) (hn : n ≠ 0)
    (hrun : FirstRun n v.places k nines) : IsCleared v (v.denoise n) n k nines := by
  obtain ⟨whole, ps, hsplit⟩ := v.exists_splitsAt
  rw [hsplit.places_eq] at hrun
  obtain ⟨hnear, hzeros, hnines⟩ := keptUnits_near hsplit hn hrun.1
  have hvalue := value_denoise hv hn hsplit hrun
  have hresult := denoise_of_firstRun hv hn hsplit hrun
  have hself := v.value_eq_sign_mul_abs
  generalize keptUnits (whole ++ ps.take k) nines = units at hnear hzeros hnines hvalue hresult
  have hnonneg : (0 : ℚ) ≤ units * 10 ^ (-(k : ℤ)) := by positivity
  have habs : |(v.denoise n).value| = units * 10 ^ (-(k : ℤ)) := by
    rw [hvalue, abs_mul, abs_sign, one_mul, abs_of_nonneg hnonneg]
  refine ⟨?_, ?_, fun h => habs ▸ hzeros h, fun h => habs ▸ hnines h, ?_⟩
  · rw [hresult]
    split
    · exact Int.neg_nonpos_of_nonneg (Int.natCast_nonneg k)
    · exact le_refl _
  · rwa [hvalue, hself, ← mul_sub, abs_mul, abs_sign, one_mul]
  · by_cases hunits : units = 0
    · exact .inl (by rw [hresult, if_pos hunits])
    -- a unit of the last place that is kept is more than the decimal moves
    · have hone : (1 : ℚ) ≤ units := by exact_mod_cast Nat.one_le_iff_ne_zero.mpr hunits
      have hunit : (10 : ℚ) ^ (-(k : ℤ)) ≤ units * 10 ^ (-(k : ℤ)) :=
        le_mul_of_one_le_left (by positivity) hone
      have hless : (10 : ℚ) ^ (-((k + n : ℕ) : ℤ)) < 10 ^ (-(k : ℤ)) :=
        zpow_lt_zpow_right₀ (by norm_num) (by omega)
      have hpos : 0 < |v.value| := by linarith [(abs_le.mp hnear).2]
      have hpos' : 0 < |(v.denoise n).value| := habs ▸ lt_of_lt_of_le (by positivity) hunit
      refine .inr ⟨abs_pos.mp hpos', ?_⟩
      rw [hvalue, hself, ← habs, sign_mul, sign_mul _ |v.value|, sign_pos hpos, sign_pos hpos']

/-- A decimal without noise is left alone, and noise is cleared behind the place where it begins. -/
theorem denoise_near (hv : digitCount v.digits ≤ precision) (hn : 1 ≤ n) :
    ((∀ k b, ¬RunAt n v.places k b) → v.denoise n = v) ∧
      ∀ k b, FirstRun n v.places k b → IsCleared v (v.denoise n) n k b := by
  have hn' : n ≠ 0 := Nat.one_le_iff_ne_zero.mp hn
  exact ⟨denoise_of_none hv hn', fun k b hrun => denoise_isCleared hv hn' hrun⟩

/-- The nines of `-5.1401999999999997` are taken for noise, and those of `0.99` are not. -/
theorem denoise_near_nines :
    (digitCount 51401999999999997 ≤ precision ∧ 1 ≤ 10 ∧
      FirstRun 10 (places ⟨true, 51401999999999997, -16⟩) 4 true ∧
      denoise ⟨true, 51401999999999997, -16⟩ 10 = ⟨true, 51402, -4⟩ ∧
      IsCleared ⟨true, 51401999999999997, -16⟩ ⟨true, 51402, -4⟩ 10 4 true) ∧
    (digitCount 99 ≤ precision ∧ (∀ k b, ¬RunAt 10 (places ⟨false, 99, -2⟩) k b) ∧
      denoise ⟨false, 99, -2⟩ 10 = ⟨false, 99, -2⟩) := by
  have hv : digitCount 51401999999999997 ≤ precision :=
    digitCount_le (by decide) (by norm_num [precision])
  have hrun : FirstRun 10 (places ⟨true, 51401999999999997, -16⟩) 4 true := by decide +kernel
  have hresult : denoise ⟨true, 51401999999999997, -16⟩ 10 = ⟨true, 51402, -4⟩ := by decide +kernel
  have hcleared :=
    (denoise_near (v := ⟨true, 51401999999999997, -16⟩) hv (n := 10) (by decide)).2 4 true hrun
  have hw : digitCount 99 ≤ precision := digitCount_le (by decide) (by norm_num [precision])
  have hnone : ∀ k b, ¬RunAt 10 (places ⟨false, 99, -2⟩) k b := by
    intro k b h
    have hshort := h.add_le (by decide)
    have hlength : (places ⟨false, 99, -2⟩).length = 2 := by decide +kernel
    omega
  rw [show ((10 : ℕ) : ℤ) = 10 from rfl, hresult] at hcleared
  exact ⟨⟨hv, by decide, hrun, hresult, hcleared⟩, hw, hnone,
    (denoise_near (v := ⟨false, 99, -2⟩) hw (n := 10) (by decide)).1 hnone⟩

end Decimal
end Mathpad
