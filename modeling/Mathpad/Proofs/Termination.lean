import Mathpad.Proofs.Agreement
import Mathpad.Proofs.Denominators
import Mathpad.Proofs.Shrinking

/-!
# Reduction comes to an end

Reduction refuses a call on a term that is no nearer to being reduced. It never has to:
no step asks for such a call. So reduction is its own step without any check, and it is
reached by recursion to some finite depth.
-/
set_option autoImplicit false

namespace Mathpad.Term

/-! ## Sums and products -/

section Operation

variable {f : Term → Outcome Reduced} {op : Operation} {ts : List Term}

/-- Numbers weigh the same. -/
theorem weightAll_numbers (numbers : List Number) :
    weightAll (numbers.map .number) = 20 * numbers.length := by
  induction numbers with
  | nil => rfl
  | cons x xs ih =>
    rw [List.map_cons, weightAll_cons, ih, List.length_cons]
    change 20 + 20 * xs.length = 20 * (xs.length + 1)
    omega

/-- What is left of a sum or a product whose members are small. -/
theorem ofMembers_shrinks {us : List Term} {changed : Bool}
    (hw : weightAll us ≤ weightAll ts) (hd : ∀ u ∈ us, u.depth ≤ (op.apply ts).depth)
    (hc : ∀ u ∈ us, Compact u) (hone : 2 ≤ us.length → ∃ u ∈ us, u.isNumber = false) :
    Shrunk (op.apply ts) (ofMembers op us changed) := by
  have ht := isNumber_apply op ts
  unfold ofMembers
  match us, hw, hd, hc, hone with
  | [], _, _, _, _ => exact shrunk_number _ _ ht
  | [u], hw, hd, hc, _ =>
    refine ⟨hd u (by simp), ?_, hc u (by simp), fun hn => ?_, fun hp => ?_⟩
    · have hlt := weightAll_lt_apply op ts
      simp only [weightAll_cons, weightAll_nil] at hw
      change u.weight ≤ (op.apply ts).weight
      omega
    · rw [ht] at hn
      cases hn
    · cases hp
  | u :: v :: us, hw, hd, hc, hone =>
    -- of two members or more, one is no number and gives the term its depth
    obtain ⟨w, hwmem, hnum⟩ := hone (by simp)
    refine ⟨?_, weight_apply_le op hw, ?_, fun hn => ?_, fun _ => ?_⟩
    · refine depth_apply_le op hd (Or.inr ?_)
      exact le_trans ((hc w hwmem).one_le_depth hnum) (hd w hwmem)
    · refine compact_apply.mpr ⟨?_, hc⟩
      rw [List.all_eq_false]
      exact ⟨w, hwmem, by simp [hnum]⟩
    · rw [ht] at hn
      cases hn
    · cases op <;> rfl

/-- One step of reducing an operation gives a term that is no deeper, and less heavy if anything was
done, provided that this holds of all terms nearer to being reduced. -/
theorem reduceOperation_shrinks (op : Operation)
    (hf : ∀ u, u.Precedes (op.apply ts) → Meets (f u) (Shrunk u) Graceful) :
    Meets (reduceOperation f op ts) (Shrunk (op.apply ts)) Graceful := by
  refine reduceOperation_meets (M := fun members _ => SmallMembers op ts members)
    (reduceMembers_shrinks hf)
    (fun _ _ _ _ _ _ => shrunk_number _ _ (isNumber_apply op ts))
    fun numbers rest changed hsmall hlead _ => ?_
  have hbehind : ∀ u ∈ rest, u.isNumber = false := isNumber_behind hsmall.ranks hlead
  have hsplit : weightAll (numbers.map .number) + weightAll rest ≤ weightAll ts := by
    rw [← weightAll_append]
    exact hsmall.weight_le
  have hrest : ∀ u ∈ rest, Mergeable (op.apply ts).depth u := fun u hu =>
    ⟨hsmall.depth_le u (by simp [hu]), hsmall.compact u (by simp [hu]), hbehind u hu⟩
  have hlight : weightAll rest < (op.apply ts).weight := by
    have hlt := weightAll_lt_apply op ts
    omega
  refine (mergeNumbers_meets op numbers rest.isEmpty).mono (fun merged hmerged => ?_)
    fun _ => graceful_of_isMaths
  obtain ⟨kept, mergedAny⟩ := merged
  obtain ⟨hone, hfew, _⟩ := hmerged
  -- every number has the same weight, so fewer numbers are lighter
  have hnumbers := weightAll_numbers numbers
  have hkept := weightAll_numbers kept
  have hkeptle : weightAll (kept.map .number) + weightAll rest ≤ weightAll ts := by
    have hlen : kept.length ≤ numbers.length := hfew
    omega
  refine (mergeLike_shrinks hf hrest hlight op).imp fun like hlike => ⟨fun combined hc => ?_,
    fun _ => ofMembers_shrinks ?_ ?_ ?_ fun htwo => ?_⟩
  · obtain ⟨hless, hdepth⟩ := hlike combined hc
    -- what was merged weighed something
    have hne : rest ≠ [] := by
      intro hnil
      rw [hnil, weightAll_nil] at hless
      omega
    obtain ⟨v, hv⟩ := List.exists_mem_of_ne_nil rest hne
    have hpos := (hrest v hv).one_le
    have hheavy := twenty_le_weightAll hne
    have hd : (op.apply (kept.map .number ++ combined)).depth ≤ (op.apply ts).depth := by
      refine depth_apply_le op ?_ (Or.inr hpos)
      exact forall_numbers_append (fun _ _ => Nat.zero_le _) hdepth
    have hw : (op.apply (kept.map .number ++ combined)).weight < (op.apply ts).weight := by
      refine weight_apply_lt ?_ (by omega)
      rw [weightAll_append]
      omega
    refine (hf _ (precedes_of_le hd hw)).imp fun r hr => ?_
    exact hr.instead hd (le_of_lt hw) (isNumber_apply op ts)
  · rw [weightAll_append]
    exact hkeptle
  · exact forall_numbers_append (fun _ _ => Nat.zero_le _) fun u hu => (hrest u hu).depth_le
  · exact forall_numbers_append (fun _ _ => trivial) fun u hu => (hrest u hu).compact
  · -- one of two members is no number, since one number at most is left
    have hone' : kept.length ≤ 1 := hone
    have hne : rest ≠ [] := by
      intro hnil
      rw [hnil, List.append_nil, List.length_map] at htwo
      omega
    obtain ⟨v, hv⟩ := List.exists_mem_of_ne_nil rest hne
    exact ⟨v, List.mem_append.mpr (Or.inr hv), (hrest v hv).isNumber⟩

end Operation

/-! ## Powers -/

section Power

variable {f : Term → Outcome Reduced} {t b e : Term}

theorem isPlain_of_number {x : Number} (h : splitExponent? (.number x) = none) :
    (Term.number x).IsPlain := ⟨rfl, h⟩

/-- A power of two reduced terms in the place of a term that is no smaller. -/
structure PowerWithin (t b e : Term) : Prop where
  depth_le : (power b e).depth ≤ t.depth
  weight_le : (power b e).weight ≤ t.weight
  compact : Compact b
  rank : t.rank = 4

/-- A term that is replaced by a power is no number. -/
theorem PowerWithin.isNumber (h : PowerWithin t b e) : t.isNumber = false := by
  have hrank := h.rank
  cases t with
  | number x => cases hrank
  | _ => rfl

/-- The power itself will do in the place of the term, once its exponent is not to be split. -/
theorem PowerWithin.still (h : PowerWithin t b e) (hsplit : splitExponent? e = none)
    (changed : Bool) : Shrunk t ⟨.power b e, changed⟩ where
  depth_le := h.depth_le
  weight_le := h.weight_le
  compact := ⟨hsplit, h.compact⟩
  number hn := by rw [h.isNumber] at hn; cases hn
  rank_eq _ := h.rank.symm

theorem PowerWithin.base_depth (h : PowerWithin t b e) : b.depth ≤ t.depth := by
  have hd := h.depth_le
  rw [depth_power] at hd
  exact le_trans (le_max_left _ _) hd

/-- The base is lighter than the term. -/
theorem PowerWithin.base_weight (h : PowerWithin t b e) : b.weight + 5 ≤ t.weight := by
  have hw := h.weight_le
  rw [weight_power] at hw
  have hgt := powerWeight_gt e (twenty_le_weight b)
  omega

theorem PowerWithin.one_le (h : PowerWithin t b e) : 1 ≤ t.depth := by
  have hd := h.depth_le
  rw [depth_power] at hd
  by_cases hnum : e.isNumber = true
  · rw [if_pos hnum] at hd
    exact le_trans (le_max_right _ _) hd
  · rw [if_neg hnum] at hd
    have hmax := le_max_right b.depth (max 1 e.depth + 1)
    omega

/-- A power of a power, with the exponents multiplied. One power weighs less than two, and
where the product of the exponents is no number, one of them was none already. -/
theorem weight_power_product_lt {b e' : Term} (hb : 20 ≤ b.weight) {x : Term}
    (hx : splitExponent? x = none)
    (hnum : e'.isNumber = true → e.isNumber = true → x.isNumber = true) :
    (power b x).weight < (power (power b e') e).weight := by
  rw [weight_power, weight_power, weight_power]
  have hinner := powerWeight_gt e' hb
  have houter := powerWeight_gt e (n := powerWeight e' b.weight) (by omega)
  -- a light power of `b` is no heavier than the inner power alone; a heavy one has an exponent
  -- that is no number, and then one of the two powers was heavy already
  by_cases hplain : x.IsPlain
  · rw [powerWeight_of_isPlain hplain]
    have hle : b.weight + b.weight / 4 ≤ powerWeight e' b.weight := by
      have hplainle := powerWeight_plain_le hplain e' (n := b.weight) (by omega)
      rwa [powerWeight_of_isPlain hplain] at hplainle
    omega
  · rw [powerWeight_of_not_isPlain hplain]
    have hnotnum : ¬(e'.isNumber = true ∧ e.isNumber = true) := fun h =>
      hplain ⟨hnum h.1 h.2, hx⟩
    by_cases he' : e'.IsPlain
    · have he : ¬e.IsPlain := fun he => hnotnum ⟨he'.1, he.1⟩
      rw [powerWeight_of_not_isPlain he]
      omega
    · rw [powerWeight_of_not_isPlain he'] at houter ⊢
      omega

/-- The powers of the factors of a product weigh less together than the power of the
product. -/
theorem weight_distributed_lt (e : Term) (ts : List Term) :
    (product (ts.map (.power · e))).weight < (power (product ts) e).weight := by
  -- the powers together add no more weight than one power of all the factors does, and the
  -- weight of the product itself, which is now outside, is no longer raised
  have hsum : e.IsPlain ∧
        weightAll (ts.map (.power · e)) ≤ weightAll ts + weightAll ts / 4 ∨
      ¬e.IsPlain ∧ weightAll (ts.map (.power · e)) ≤ 2 * weightAll ts := by
    by_cases he : e.IsPlain
    · left
      refine ⟨he, ?_⟩
      induction ts with
      | nil => exact Nat.zero_le _
      | cons t ts ih =>
        simp only [List.map_cons, weightAll_cons, weight_power, powerWeight_of_isPlain he]
        omega
    · right
      refine ⟨he, ?_⟩
      induction ts with
      | nil => exact Nat.zero_le _
      | cons t ts ih =>
        simp only [List.map_cons, weightAll_cons, weight_power, powerWeight_of_not_isPlain he]
        omega
  have hnew : (product (ts.map (.power · e))).weight
      = max 20 (weightAll (ts.map (.power · e)) + 4) := rfl
  have hold : (product ts).weight = max 20 (weightAll ts + 4) := rfl
  rw [weight_power, hnew, hold]
  rcases hsum with ⟨he, hle⟩ | ⟨he, hle⟩
  · rw [powerWeight_of_isPlain he]
    omega
  · rw [powerWeight_of_not_isPlain he]
    omega

theorem depth_distributed_le (e : Term) (ts : List Term) :
    (product (ts.map (.power · e))).depth ≤ (power (product ts) e).depth := by
  by_cases hnil : ts = []
  · rw [hnil]
    exact Nat.zero_le _
  · refine depth_apply_le .product (fun u hu => ?_) (Or.inr ?_)
    · obtain ⟨v, hv, rfl⟩ := List.mem_map.mp hu
      rw [depth_power, depth_power]
      exact max_le_max (depth_le_apply .product hv) (le_refl _)
    · rw [depth_power]
      by_cases hnum : e.isNumber = true
      · rw [if_pos hnum]
        exact le_max_right _ _
      · rw [if_neg hnum]
        have hmax := le_max_right (product ts).depth (max 1 e.depth + 1)
        omega

/-- Of a power of a power, the product of the exponents is reduced one level further in, and what
comes of it is put in place of both. -/
theorem combinePower_power_shrinks (hf : ∀ u, u.Precedes t → Meets (f u) (Shrunk u) Graceful)
    {b' e' : Term} (h : PowerWithin t (power b' e') e) (hsplit : splitExponent? e = none)
    (whole : Option Int) (changed : Bool) :
    Meets (combinePower f (power b' e') e whole changed) (Shrunk t) Graceful := by
  rw [combinePower]
  -- the exponents are those of a power that fits, so their product is one level further in
  have hexp : (product [e', e]).depth + 1 ≤ t.depth := by
    refine depth_exponents h.one_le (fun x hx => ?_) .product
    rcases List.mem_cons.mp hx with rfl | hx
    · exact fitsExponent_of_power h.base_depth
    · obtain rfl : x = e := by simpa using hx
      exact fitsExponent_of_power h.depth_le
  refine (hf _ (Or.inl (by omega))).bind fun x hx => ?_
  by_cases hxs : (splitExponent? x.term).isSome = true
  · rw [if_pos hxs]
    exact h.still hsplit changed
  · rw [if_neg hxs]
    have hxd := hx.depth_le
    have hd : (power b' x.term).depth ≤ t.depth := by
      refine depth_power_le ?_ hx.compact (by omega)
      have hbd := h.base_depth
      rw [depth_power] at hbd
      exact le_trans (le_max_left _ _) hbd
    have hw : (power b' x.term).weight < t.weight := by
      refine lt_of_lt_of_le ?_ h.weight_le
      refine weight_power_product_lt (twenty_le_weight b') (by simpa using hxs) ?_
      intro he' he
      refine hx.compact.isNumber_of_depth ?_
      have hflat : (product [e', e]).depth = 0 := by simp [depth, he', he]
      omega
    refine (hf _ (precedes_of_le hd hw)).bind fun r hr => ?_
    exact hr.instead hd (le_of_lt hw) h.isNumber

/-- Combining a base with its exponent shrinks the term: wherever another reduction is asked for,
the term that is to be reduced is nearer to it. -/
theorem combinePower_shrinks (hf : ∀ u, u.Precedes t → Meets (f u) (Shrunk u) Graceful)
    (h : PowerWithin t b e) (hsplit : splitExponent? e = none) (whole : Option Int)
    (changed : Bool) : Meets (combinePower f b e whole changed) (Shrunk t) Graceful := by
  cases b with
  | number x =>
    rw [combinePower]
    refine ((numberPower?_meets x e whole).mono (fun _ h => h)
      fun _ => graceful_of_isMaths).bind fun y _ => ?_
    cases y with
    | none => exact h.still hsplit changed
    | some y => exact shrunk_number t y h.isNumber
  | power b' e' => exact combinePower_power_shrinks hf h hsplit whole changed
  | product ts =>
    rw [combinePower]
    have hd := le_trans (depth_distributed_le e ts) h.depth_le
    have hw := lt_of_lt_of_le (weight_distributed_lt e ts) h.weight_le
    refine (hf _ (precedes_of_le hd hw)).bind fun r hr => ?_
    exact hr.instead hd (le_of_lt hw) h.isNumber
  | _ => exact h.still hsplit changed

/-- One step of reducing a power shrinks it. An exponent that is split moves into the base, which
makes the power lighter. -/
theorem reducePower_shrinks (hf : ∀ u, u.Precedes t → Meets (f u) (Shrunk u) Graceful)
    (h : PowerWithin t b e) (changed : Bool) :
    Meets (reducePower f b e changed) (Shrunk t) Graceful := by
  have hb := twenty_le_weight b
  refine reducePower_meets (fun n d hsplit => ?_) fun hsplit => ?_
  · -- both exponents of the split power are plain, and the one it replaces is not
    have hnot : ¬e.IsPlain := fun he => by rw [he.2] at hsplit; cases hsplit
    have hn : (Term.number (.ratio n 1)).IsPlain := isPlain_of_number (by simp [splitExponent?])
    have hd : (Term.number (.ratio 1 d)).IsPlain := isPlain_of_number (by simp [splitExponent?])
    have hdepth : (power (power b (.number (.ratio n 1))) (.number (.ratio 1 d))).depth
        ≤ t.depth := by
      have hnum : ∀ x : Number, (Term.number x).isNumber = true := fun _ => rfl
      rw [depth_power, depth_power, if_pos (hnum _), if_pos (hnum _)]
      exact max_le (max_le h.base_depth h.one_le) h.one_le
    have hweight : (power (power b (.number (.ratio n 1))) (.number (.ratio 1 d))).weight
        < t.weight := by
      refine lt_of_lt_of_le ?_ h.weight_le
      rw [weight_power, weight_power, weight_power, powerWeight_of_isPlain hn,
        powerWeight_of_isPlain hd, powerWeight_of_not_isPlain hnot]
      omega
    exact (hf _ (precedes_of_le hdepth hweight)).imp fun r hr =>
      hr.instead hdepth (le_of_lt hweight) h.isNumber
  · have hwhole : Meets (wholeExponent? e) (fun _ => True) Graceful := by
      cases e with
      | number x =>
        refine (Number.whole?_fault x).mono (fun _ _ => trivial) fun f hf => ?_
        rw [hf]
        intro heq
        cases heq
      | _ => exact trivial
    refine hwhole.imp fun whole _ => ⟨fun _ => ?_, fun _ => ?_, fun _ _ => ?_⟩
    · have hbw := h.base_weight
      refine ⟨h.base_depth, ?_, h.compact, fun hn => ?_, fun hp => ?_⟩
      · change b.weight ≤ t.weight
        omega
      · rw [h.isNumber] at hn
        cases hn
      · cases hp
    · exact shrunk_number t _ h.isNumber
    · exact combinePower_shrinks hf h hsplit whole changed

end Power

/-! ## All terms -/

/-- A base is nearer to being reduced than the power. -/
theorem base_precedes (b e : Term) : b.Precedes (power b e) := by
  refine precedes_of_le ?_ ?_
  · rw [depth_power]
    exact le_max_left _ _
  · rw [weight_power]
    have hgt := powerWeight_gt e (twenty_le_weight b)
    omega

/-- An exponent is nearer to being reduced than the power, as it is less deep. -/
theorem exponent_precedes (b e : Term) : e.Precedes (power b e) := by
  left
  rw [depth_power]
  by_cases hnum : e.isNumber = true
  · rw [if_pos hnum, depth_of_isNumber hnum]
    exact lt_of_lt_of_le Nat.zero_lt_one (le_max_right _ _)
  · rw [if_neg hnum]
    have hmax := le_max_right b.depth (max 1 e.depth + 1)
    have hone := le_max_right 1 e.depth
    omega

/-- An argument is nearer to being reduced than the call. -/
theorem argument_precedes {c : NamedFunction} {ts : List Term} {t : Term} (h : t ∈ ts) :
    t.Precedes (call c ts) := by
  refine precedes_of_le ?_ ?_
  · change t.depth ≤ max 1 (depthAll ts)
    exact le_trans (depth_le_depthAll h) (le_max_right 1 _)
  · change t.weight < weightAll ts + 25
    have hle := weight_le_weightAll h
    omega

/-- Reduced parts make a power that is no deeper and no heavier. -/
theorem powerWithin_of_shrunk {b e : Term} {rb re : Reduced} (hb : Shrunk b rb)
    (he : Shrunk e re) : PowerWithin (power b e) rb.term re.term := by
  have hbw := twenty_le_weight b
  refine ⟨?_, ?_, hb.compact, rfl⟩
  · rw [depth_power, depth_power]
    refine max_le_max hb.depth_le ?_
    by_cases hnum : e.isNumber = true
    · rw [he.number hnum]
    · rw [if_neg hnum]
      have hmax := le_max_left 1 e.depth
      by_cases hrnum : re.term.isNumber = true
      · rw [if_pos hrnum]
        omega
      · rw [if_neg hrnum]
        exact Nat.add_le_add_right (max_le_max (le_refl 1) he.depth_le) 1
  -- an exponent that is no number may become one, which makes the power lighter
  · rw [weight_power, weight_power]
    by_cases hplain : e.IsPlain
    · rw [he.number hplain.1]
      exact powerWeight_mono e hb.weight_le
    · refine le_trans (powerWeight_mono re.term hb.weight_le) ?_
      have hlt := powerWeight_lt re.term (n := b.weight) (by omega)
      rw [powerWeight_of_not_isPlain hplain]
      omega

/-- One step of reduction shrinks a term, if the reductions that it asks for shrink terms that are
nearer to being reduced. -/
theorem reduceStep_shrinks (f : Term → Outcome Reduced) (t : Term)
    (hf : ∀ u, u.Precedes t → Meets (f u) (Shrunk u) Graceful) :
    Meets (reduceStep f t) (Shrunk t) Graceful := by
  cases t with
  | number x => exact ⟨le_refl _, le_refl _, trivial, fun _ => rfl, fun _ => rfl⟩
  | var name => exact ⟨le_refl _, le_refl _, trivial, fun hn => absurd hn Bool.false_ne_true,
      fun _ => rfl⟩
  | product ts => exact reduceOperation_shrinks .product hf
  | sum ts => exact reduceOperation_shrinks .sum hf
  | power b e =>
    rw [reduceStep]
    refine (hf b (base_precedes b e)).bind fun rb hb => ?_
    refine (hf e (exponent_precedes b e)).bind fun re he => ?_
    exact reducePower_shrinks hf (powerWithin_of_shrunk hb he) _
  | call c ts =>
    rw [reduceStep]
    -- a call is as deep and as heavy as its arguments make it
    refine (Meets.mapM fun u hu => hf u (argument_precedes hu)).bind fun rs hrs => ?_
    have hw : weightAll (rs.map (·.term)) ≤ weightAll ts := by
      clear hf
      induction hrs with
      | nil => exact le_refl _
      | cons hr _ ih => exact Nat.add_le_add hr.weight_le ih
    refine ⟨?_, ?_, ?_, fun hn => absurd hn Bool.false_ne_true, fun _ => rfl⟩
    · refine max_le_max (le_refl 1) (depthAll_le_iff.mpr fun u hu => ?_)
      obtain ⟨r, hr, rfl⟩ := List.mem_map.mp hu
      obtain ⟨v, hv, hs⟩ := exists_of_forall₂_right hrs hr
      exact le_trans hs.depth_le (depth_le_depthAll hv)
    · change weightAll (rs.map (·.term)) + 25 ≤ weightAll ts + 25
      omega
    · refine compactAll_iff.mpr fun u hu => ?_
      obtain ⟨r, hr, rfl⟩ := List.mem_map.mp hu
      obtain ⟨v, _, hs⟩ := exists_of_forall₂_right hrs hr
      exact hs.compact

/-- Reduction never refuses to go on, and what it makes of a term is no deeper and no
heavier. -/
theorem reduce_shrinks (t : Term) : Meets t.reduce (Shrunk t) Graceful :=
  reduce_meets_of_precedes (E := fun _ => Graceful) reduceStep_shrinks t

/-! ## Without the check -/

open Agreement

theorem reduce_ne_endless (t : Term) : t.reduce ≠ endless := by
  intro h
  exact (reduce_shrinks t).of_error h rfl

/-- A step with a function that may refuse where another one goes on has the same outcome
as the step with the other one, unless it refuses itself. -/
theorem reduceStep_of_refusing {f g : Term → Outcome Reduced} {t : Term}
    (h : ∀ u, f u = endless ∨ f u = g u) (hne : reduceStep f t ≠ endless) :
    reduceStep g t = reduceStep f t := by
  have hagree := reduceStep_agrees refusing (f := fun _ => f) (g := g) h t
  exact (hagree.resolve_left hne).symm

/-- Reduction is its own step: the check whether a term is nearer to being reduced never
has anything to refuse. -/
theorem reduce_eq (t : Term) : t.reduce = reduceStep reduce t := by
  have hguard := reduce.eq_1 t
  have hne := reduce_ne_endless t
  rw [hguard] at hne ⊢
  refine (reduceStep_of_refusing (fun u => ?_) hne).symm
  by_cases hu : u.Precedes t
  · rw [if_pos hu]
    exact Or.inr rfl
  · rw [if_neg hu]
    exact Or.inl rfl

/-- What a reduction promises on the terms in `D`, shown one step at a time. The step may use
that a result it is given is what reduction gives, and it need not mind refusals. -/
theorem reduce_induction {D : Term → Prop} {Q : Term → Reduced → Prop}
    {E : Term → Fault → Prop}
    (step : ∀ f, (∀ u, D u → Meets (f u) (fun r => u.reduce = .ok r ∧ Q u r)
        fun e => e = .mishap .endless ∨ E u e) →
      ∀ t, D t → Meets (reduceStep f t) (Q t) fun e => e = .mishap .endless ∨ E t e)
    (t : Term) (ht : D t) : Meets t.reduce (Q t) (E t) := by
  induction t using precedes_wellFounded.induction with
  | _ t ih =>
    have hguard : t.reduce
        = reduceStep (fun u => if u.Precedes t then u.reduce else endless) t := reduce.eq_1 t
    have hstep : Meets t.reduce (Q t) fun e => e = .mishap .endless ∨ E t e := by
      rw [hguard]
      refine step _ (fun u hu => ?_) t ht
      by_cases hlt : u.Precedes t
      · rw [if_pos hlt]
        exact (ih u hlt hu).eq_and.mono (fun _ h => h) fun _ h => Or.inr h
      · rw [if_neg hlt]
        exact Or.inl rfl
    cases ho : t.reduce with
    | ok r => exact hstep.of_ok ho
    | error f =>
      refine (hstep.of_error ho).resolve_left fun hend => reduce_ne_endless t ?_
      rw [ho, hend]
      rfl

/-- Reduction by recursion to a limited depth, without any check. -/
def reduceWithin : Nat → Term → Outcome Reduced
  | 0, _ => endless
  | depth + 1, t => reduceStep (reduceWithin depth) t

/-- Reduction to a limited depth refuses, or gives what reduction gives. -/
theorem reduceWithin_refusing (n : Nat) (t : Term) :
    reduceWithin n t = endless ∨ reduceWithin n t = t.reduce := by
  induction n generalizing t with
  | zero => exact Or.inl rfl
  | succ n ih =>
    by_cases hne : reduceStep (reduceWithin n) t = endless
    · exact Or.inl hne
    · right
      rw [reduce_eq, reduceStep_of_refusing ih hne]
      rfl

/-- What a recursion to limited depth arrives at is what reduction arrives at. -/
theorem reduce_of_reduceWithin {n : Nat} {t : Term} {r : Reduced}
    (h : reduceWithin n t = .ok r) : t.reduce = .ok r := by
  rcases reduceWithin_refusing n t with hend | heq
  · rw [h] at hend
    cases hend
  · exact heq.symm.trans h

/-- Some depth is enough, and any greater one is too. -/
theorem reduceWithin_settles (t : Term) : ∃ n, ∀ m, n ≤ m → reduceWithin m t = t.reduce := by
  induction t using precedes_wellFounded.induction with
  | _ t ih =>
    -- the limited recursions, restricted to the terms that the induction speaks of
    have hagree := reduceStep_agrees settling
      (f := fun m u => if u.Precedes t then reduceWithin m u else endless)
      (g := fun u => if u.Precedes t then u.reduce else endless) (fun u => by
        by_cases hu : u.Precedes t
        · simp only [hu, if_true]
          exact ih u hu
        · simp only [hu, if_false]
          exact settling.same _) t
    -- one level more than the restricted recursions need
    obtain ⟨n, hn⟩ := hagree
    refine ⟨n + 1, fun m hm => ?_⟩
    obtain ⟨k, rfl⟩ : ∃ k, m = k + 1 := ⟨m - 1, by omega⟩
    have hstep : reduceStep (fun u => if u.Precedes t then reduceWithin k u else endless) t
        = t.reduce := (hn k (by omega)).trans (reduce.eq_1 t).symm
    rw [← hstep]
    refine reduceStep_of_refusing (fun u => ?_) ?_
    · by_cases hu : u.Precedes t
      · exact Or.inr (if_pos hu)
      · exact Or.inl (if_neg hu)
    · rw [hstep]
      exact reduce_ne_endless t

/-- Reduction of a term without zero denominators comes to an end. Recursion to some finite
depth is enough, whatever rules follow each other on the way, and its outcome is a term or
a fault in arithmetic. -/
theorem reduction_terminates (t : Term) (ht : HasDenominators t) :
    (∃ n, ∀ m, n ≤ m → reduceWithin m t = t.reduce) ∧
      ((∃ r, t.reduce = .ok r) ∨ ∃ e, t.reduce = .error (.maths e)) := by
  refine ⟨reduceWithin_settles t, ?_⟩
  have hfault := reduce_keepsDenominators ht
  cases h : t.reduce with
  | ok r => exact Or.inl ⟨r, rfl⟩
  | error f =>
    right
    rcases hfault.of_error h with ⟨e, rfl⟩ | hend
    · exact ⟨e, rfl⟩
    · rw [hend] at h
      exact absurd h (reduce_ne_endless t)

/-- A product to a fractional power, which is split, taken into the product, and merged with
the exponent that is there. -/
theorem reduction_terminates_split :
    let t := power (product [number (.ratio 2 1), power (var "x") (number (.ratio 3 4))])
      (number (.ratio 2 3))
    HasDenominators t ∧ ∃ n, ∀ m, n ≤ m → reduceWithin m t = t.reduce := by
  intro t
  have hden : HasDenominators t := by
    simp [t, HasDenominators, AllNumbers, AllNumbersIn, Number.HasDenominator]
  exact ⟨hden, (reduction_terminates t hden).1⟩

end Mathpad.Term
