import Mathlib.Data.List.TFAE
import Mathlib.Tactic.TFAE
import Mathpad.Expr.Basic
import Mathpad.Proofs.NoiseRuns

/-!
# Clearing noise twice

What is kept in front of the first run contains no run itself, so clearing a decimal of its noise
once is enough, unless the digits that are kept change. In front of nines the last one goes up by
one. It is no nine, or the run would have begun there, and so nothing is carried. But an eight
becomes a nine, and with just enough nines before it that is a run which was not there before
(`Decimal.denoise_tfae`).
-/
set_option autoImplicit false

namespace Mathpad

/-! ## Runs and what is kept -/

variable {n k j : Nat} {cs ds : List Char} {c d : Char} {b nines : Bool}

theorem RunAt.mono (h : RunAt n cs j b) (hfront : cs <+: ds) : RunAt n ds j b :=
  h.trans (hfront.drop j)

/-- What is kept in front of the first run has none. -/
theorem FirstRun.not_runAt_take (h : FirstRun n cs k nines) (hn : n ≠ 0) :
    ¬RunAt n (cs.take k) j b := by
  intro hrun
  have hle := hrun.add_le hn
  rw [List.length_take] at hle
  exact h.2 j (by omega) b (hrun.mono (List.take_prefix k cs))

/-- A run in front of one more digit has been there before, or it ends with that digit. -/
theorem RunAt.append_singleton (h : RunAt n (cs ++ [c]) j b) :
    RunAt n cs j b ∨ j + n = cs.length + 1 ∧
      List.replicate (n - 1) (noiseDigit b) <:+ cs ∧ c = noiseDigit b := by
  by_cases hj : j ≤ cs.length
  · rw [RunAt, List.drop_append_of_le_length hj, List.prefix_concat_iff] at h
    refine h.symm.imp_right fun hall => ?_
    have hlength := congrArg List.length hall
    rw [List.length_replicate, List.length_append, List.length_drop,
      List.length_singleton] at hlength
    obtain ⟨m, rfl⟩ : ∃ m, n = m + 1 := ⟨cs.length - j, hlength⟩
    rw [List.replicate_succ'] at hall
    obtain ⟨hfront, hlast⟩ := List.append_inj' hall rfl
    refine ⟨by omega, ?_, (List.singleton_inj.mp hlast).symm⟩
    rw [Nat.add_sub_cancel, hfront]
    exact List.drop_suffix j cs
  -- behind the end there is only the run of no digits
  · rw [RunAt, List.drop_eq_nil_of_le (by simp; omega), List.prefix_nil] at h
    rw [RunAt, h]
    exact .inl List.nil_prefix

/-- The digit in front of the first run of nines is no nine. -/
theorem FirstRun.ne_nine (h : FirstRun n (cs ++ c :: ds) (cs.length + 1) true) : c ≠ '9' := by
  rintro rfl
  obtain ⟨hrun, hfirst⟩ := h
  -- with a nine in front of it the run would have begun one place earlier
  refine hfirst cs.length (Nat.lt_succ_self _) true ?_
  rw [RunAt, ← List.drop_drop, List.drop_left, List.drop_one, List.tail_cons] at hrun
  rw [RunAt, List.drop_left]
  have hmore : List.replicate n '9' <+: '9' :: List.replicate n '9' := by
    rw [← List.replicate_succ, List.replicate_succ']
    exact List.prefix_append _ _
  exact hmore.trans (List.cons_prefix_cons.mpr ⟨rfl, hrun⟩)

/-- Every digit but nine has a next one. -/
theorem exists_next_digit (hc : c.isDigit = true) (hnine : c ≠ '9') :
    ∃ d : Char, d.isDigit = true ∧ d.toNat = c.toNat + 1 := by
  have hcode := Text.toNat_of_isDigit hc
  have hless : c.toNat ≠ 57 := fun h => hnine (Char.toNat_inj.mp h)
  generalize c.toNat = m at hcode hless
  have hlow : 48 ≤ m := hcode.1
  have hhigh : m ≤ 56 := by omega
  refine ⟨Char.ofNat (m + 1), ?_⟩
  interval_cases m <;> exact ⟨rfl, rfl⟩

/-! ## The places that are left -/

namespace Decimal

variable {v : Decimal} {whole ps qs : List Char}

theorem places_of_nonneg (h : 0 ≤ v.exponent) : v.places = [] := by
  rw [places, splitAtPoint, if_pos h]

/-- Digits behind the point are the places of the decimal that is made of them. -/
theorem SplitsAt.places_units (hsplit : v.SplitsAt whole ps) (hqs : ∀ c ∈ qs, c.isDigit = true)
    (negative : Bool) :
    places ⟨negative, digitsValue (whole ++ qs), -(qs.length : Int)⟩ = qs := by
  have hdigits : ∀ c ∈ whole ++ qs, c.isDigit = true := by
    intro c hc
    rcases List.mem_append.mp hc with hc | hc
    · exact hsplit.digits c (List.mem_append_left _ hc)
    · exact hqs c hc
  rw [places, splitAtPoint_digitsValue negative hdigits hsplit.whole_ne_nil hsplit.head]

/-- In front of zeros the places are kept as they are. -/
theorem places_denoise_zeros (hv : digitCount v.digits ≤ precision) (hn : n ≠ 0)
    (hsplit : v.SplitsAt whole ps) (hrun : FirstRun n ps k false) :
    (v.denoise n).places <+: ps.take k := by
  have hkept := hrun.1.length_take hn
  have hdigits : ∀ c ∈ ps.take k, c.isDigit = true := fun c hc =>
    hsplit.digits c (List.mem_append_right _ (List.mem_of_mem_take hc))
  rw [denoise_of_firstRun hv hn hsplit hrun, keptUnits, Bool.toNat_false, Nat.add_zero]
  split
  · rw [places_of_nonneg (le_refl _)]
    exact List.nil_prefix
  · have hplaces := hsplit.places_units hdigits v.isBelowZero
    rw [hkept] at hplaces
    rw [hplaces]

/-- In front of nines the last place that is kept goes up by one. -/
theorem places_denoise_nines (hv : digitCount v.digits ≤ precision) (hn : n ≠ 0)
    (hsplit : v.SplitsAt whole ps) (hrun : FirstRun n ps k true) (hkept : ps.take k = cs ++ [c]) :
    ∃ d : Char, d.toNat = c.toNat + 1 ∧ (v.denoise n).places = cs ++ [d] := by
  have hlength := congrArg List.length hkept
  rw [hrun.1.length_take hn, List.length_append, List.length_singleton] at hlength
  have hdigits : ∀ x ∈ cs ++ [c], x.isDigit = true := fun x hx =>
    hsplit.digits x (List.mem_append_right _ (List.mem_of_mem_take (hkept ▸ hx)))
  have hsplitAt := List.take_append_drop k ps
  rw [hkept, List.append_assoc, List.singleton_append] at hsplitAt
  -- a nine there would be part of the run
  have hnine : c ≠ '9' := by
    rw [← hsplitAt, hlength] at hrun
    exact hrun.ne_nine
  obtain ⟨d, hd, hcode⟩ := exists_next_digit (hdigits c (by simp)) hnine
  refine ⟨d, hcode, ?_⟩
  -- so the last digit goes up without a carry
  have hunits : keptUnits (whole ++ ps.take k) true = digitsValue (whole ++ (cs ++ [d])) := by
    have hlow := Text.toNat_of_isDigit (hdigits c (by simp))
    have hsingle : ∀ x : Char, digitsValue [x] = x.toNat - 48 := fun x => Nat.zero_add _
    rw [keptUnits, hkept, ← List.append_assoc, ← List.append_assoc, digitsValue_append,
      digitsValue_append (whole ++ cs), hsingle, hsingle, hcode, Bool.toNat_true,
      List.length_singleton, List.length_singleton]
    omega
  have hpositive : ¬keptUnits (whole ++ ps.take k) true = 0 := Nat.succ_ne_zero _
  have hdigits' : ∀ x ∈ cs ++ [d], x.isDigit = true := by
    intro x hx
    rcases List.mem_append.mp hx with hx | hx
    · exact hdigits x (List.mem_append_left _ hx)
    · rwa [List.mem_singleton.mp hx]
  have hplaces := hsplit.places_units hdigits' v.isBelowZero
  rw [List.length_append, List.length_singleton] at hplaces
  rwa [denoise_of_firstRun hv hn hsplit hrun, if_neg hpositive, hunits, hlength]

/-! ## Twice and once -/

theorem digitCount_denoise_le (hv : digitCount v.digits ≤ precision) (hn : n ≠ 0) :
    digitCount (v.denoise n).digits ≤ precision := by
  rcases none_or_exists_firstRun n v.places with hnone | ⟨k, nines, hrun⟩
  · rwa [denoise_of_none hv hn hnone]
  · obtain ⟨whole, ps, hsplit⟩ := v.exists_splitsAt
    rw [hsplit.places_eq] at hrun
    rw [denoise_of_firstRun hv hn hsplit hrun]
    split
    · exact digitCount_le (by decide) (by decide)
    · exact digitCount_le (by decide) ((keptUnits_le hv hsplit hn hrun.1).trans_lt (by decide))

/-- The digits that are kept in front of the first run, which is one of nines, end with an eight, and
before it come just the nines that are one less than a run. -/
def LeavesRun (n : Nat) (v : Decimal) : Prop :=
  ∃ k, FirstRun n v.places k true ∧ (List.replicate (n - 1) '9' ++ ['8']) <:+ v.places.take k

/-- What is cleared once has no run, unless there is one in front of the run of nines that was
rounded up. -/
theorem not_runAt_denoise (hv : digitCount v.digits ≤ precision) (hn : n ≠ 0)
    (hrun : FirstRun n v.places k nines) (hleaves : ¬LeavesRun n v) :
    ¬RunAt n (v.denoise n).places j b := by
  intro hagain
  obtain ⟨whole, ps, hsplit⟩ := v.exists_splitsAt
  rw [LeavesRun, hsplit.places_eq] at hleaves
  rw [hsplit.places_eq] at hrun
  cases nines with
  | false => exact hrun.not_runAt_take hn (hagain.mono (places_denoise_zeros hv hn hsplit hrun))
  | true =>
    rcases List.eq_nil_or_concat' (ps.take k) with hkept | ⟨cs, c, hkept⟩
    · have hlength := hrun.1.length_take hn
      rw [hkept, List.length_nil] at hlength
      have hplaces : (v.denoise n).places = [] := by
        refine places_of_nonneg ?_
        rw [denoise_of_firstRun hv hn hsplit hrun, ← hlength]
        split <;> exact le_refl _
      rw [hplaces] at hagain
      exact not_runAt_nil hn hagain
    · obtain ⟨d, hcode, hplaces⟩ := places_denoise_nines hv hn hsplit hrun hkept
      rw [hplaces] at hagain
      rcases hagain.append_singleton with hbefore | ⟨-, hsuffix, hlast⟩
      · exact hrun.not_runAt_take hn (hbefore.mono (hkept ▸ List.prefix_append cs [c]))
      · have hmem : c ∈ ps.take k := by rw [hkept]; simp
        have hlow := Text.toNat_of_isDigit
          (hsplit.digits c (List.mem_append_right _ (List.mem_of_mem_take hmem)))
        cases b with
        | false =>
          -- no digit comes before zero
          rw [hlast, show (noiseDigit false).toNat = 48 from rfl] at hcode
          omega
        | true =>
          rw [hlast, show (noiseDigit true).toNat = 57 from rfl] at hcode
          have hc : c = '8' := Char.toNat_inj.mp (Nat.succ.inj hcode.symm)
          obtain ⟨front, hfront⟩ := hsuffix
          refine hleaves ⟨k, hrun, front, ?_⟩
          rw [hkept, hc, ← List.append_assoc]
          exact congrArg (· ++ ['8']) hfront

/-- What leaves a run has a run of nines when it is cleared. -/
theorem exists_firstRun_denoise (hv : digitCount v.digits ≤ precision) (hn : n ≠ 0)
    (hleaves : LeavesRun n v) : ∃ j, FirstRun n (v.denoise n).places j true := by
  obtain ⟨whole, ps, hsplit⟩ := v.exists_splitsAt
  rw [LeavesRun, hsplit.places_eq] at hleaves
  obtain ⟨k, hrun, front, hfront⟩ := hleaves
  rw [← List.append_assoc] at hfront
  obtain ⟨d, hcode, hplaces⟩ := places_denoise_nines hv hn hsplit hrun hfront.symm
  have hnine : d = '9' := Char.toNat_inj.mp hcode
  obtain ⟨m, rfl⟩ := Nat.exists_eq_succ_of_ne_zero hn
  have hall : (v.denoise (m + 1 : ℕ)).places = front ++ List.replicate (m + 1) '9' := by
    rw [hplaces, hnine, List.replicate_succ', List.append_assoc, Nat.succ_sub_one]
  refine ⟨front.length, ?_, fun j hj b hagain => ?_⟩
  · rw [RunAt, hall, List.drop_left]
    exact List.prefix_refl _
  -- a run further in front would have been there before
  · rw [hplaces] at hagain
    rcases hagain.append_singleton with hbefore | ⟨hlength, -⟩
    · exact hrun.not_runAt_take hn (hbefore.mono (hfront ▸ List.prefix_append _ _))
    · rw [List.length_append, List.length_replicate] at hlength
      omega

/-- Clearing a decimal twice is the same as clearing it once, digit for digit and in value, exactly
if no run is left by the first time. -/
theorem denoise_tfae (hv : digitCount v.digits ≤ precision) (hn : 1 ≤ n) :
    [(v.denoise n).denoise n = v.denoise n,
      ((v.denoise n).denoise n).value = (v.denoise n).value,
      ¬LeavesRun n v].TFAE := by
  have hn' : n ≠ 0 := Nat.one_le_iff_ne_zero.mp hn
  have hagain := digitCount_denoise_le hv hn'
  tfae_have 1 → 2 := fun h => congrArg value h
  tfae_have 2 → 3 := by
    intro hvalue hleaves
    obtain ⟨j, hrun⟩ := exists_firstRun_denoise hv hn' hleaves
    have hless := (denoise_isCleared hagain hn' hrun).nines rfl
    rw [hvalue] at hless
    exact lt_irrefl _ hless
  tfae_have 3 → 1 := by
    intro hleaves
    rcases none_or_exists_firstRun n v.places with hnone | ⟨k, nines, hrun⟩
    · rw [denoise_of_none hv hn' hnone, denoise_of_none hv hn' hnone]
    · exact denoise_of_none hagain hn' fun j b => not_runAt_denoise hv hn' hrun hleaves
  tfae_finish

/-- Clearing `5.1401999999999997` gives `5.1402`, which has no noise. -/
theorem denoise_tfae_nines :
    digitCount 51401999999999997 ≤ precision ∧ 1 ≤ 10 ∧
      (denoise ⟨false, 51401999999999997, -16⟩ 10).denoise 10 =
        denoise ⟨false, 51401999999999997, -16⟩ 10 ∧
      ¬LeavesRun 10 ⟨false, 51401999999999997, -16⟩ := by
  have hv : digitCount 51401999999999997 ≤ precision :=
    digitCount_le (by decide) (by norm_num [precision])
  have hagain : (denoise ⟨false, 51401999999999997, -16⟩ 10).denoise 10 =
      denoise ⟨false, 51401999999999997, -16⟩ 10 := by
    decide +kernel
  have hleaves :=
    (denoise_tfae (v := ⟨false, 51401999999999997, -16⟩) hv (n := 10) (by decide)).out 0 2
  exact ⟨hv, by decide, hagain, hleaves.mp hagain⟩

/-- Clearing `0.99999999989999999999` gives `0.9999999999`, and clearing that gives one. The cosine
of `0.0000141421356242` is cleared in this way, once where it is computed, and again where it is
shown. -/
theorem denoise_twice_cosine :
    digitCount 99999999989999999999 ≤ precision ∧
    denoise ⟨false, 99999999989999999999, -20⟩ noiseRun = ⟨false, 9999999999, -10⟩ ∧
    (denoise ⟨false, 99999999989999999999, -20⟩ noiseRun).denoise noiseRun = one ∧
    (denoise ⟨false, 99999999989999999999, -20⟩ noiseRun).denoise noiseRun ≠
      denoise ⟨false, 99999999989999999999, -20⟩ noiseRun ∧
    (Expr.call .cosine [.number (.decimal ⟨false, 141421356242, -16⟩ .exact)]).eval
      ⟨.radian, false⟩ = .ok (.decimal ⟨false, 9999999999, -10⟩ .approximate) ∧
    (Number.decimal ⟨false, 9999999999, -10⟩ .approximate).denoise = .decimal one .approximate := by
  decide +kernel

end Decimal
end Mathpad
