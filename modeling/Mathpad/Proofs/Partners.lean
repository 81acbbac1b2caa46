import Mathpad.Proofs.TextFaults

/-!
# Which parentheses belong together

Two parentheses are partners if the parentheses of the text between them match. Every text begins with
one whose parentheses match, and ends there, or goes on with a closing parenthesis, or goes on with an
opening one that is never closed (`Brackets.Verdict`). This parenthesis is then the first one without a
partner, and the one that is reported. So the search for a parenthesis without a partner, the search for
the partner and the cutting at commas agree on which parentheses match (`Brackets.parentheses_agree`).
-/
set_option autoImplicit false

namespace Mathpad.Brackets

variable {cs : List Char} {i j k : Nat}

/-! ## Partners -/

/-- The parenthesis at the first place is closed by the one at the second place. -/
def Partners (cs : List Char) (i j : Nat) : Prop :=
  ∃ before inner after, cs = before ++ '(' :: (inner ++ ')' :: after) ∧ before.length = i ∧
    i + 1 + inner.length = j ∧ Nested true inner

/-- There is a parenthesis at the place, and no partner for it. -/
def Lone (cs : List Char) (k : Nat) : Prop :=
  (cs[k]? = some '(' ∨ cs[k]? = some ')') ∧ ∀ j, ¬ Partners cs k j ∧ ¬ Partners cs j k

/-- Partners stay so behind another text. -/
theorem Partners.append_left (h : Partners cs i j) (front : List Char) :
    Partners (front ++ cs) (front.length + i) (front.length + j) := by
  obtain ⟨before, inner, after, rfl, rfl, rfl, hinner⟩ := h
  refine ⟨front ++ before, inner, after, ?_, ?_, ?_, hinner⟩
  · rw [List.append_assoc]
  · rw [List.length_append]
  · omega

/-- Partners stay so in front of another text. -/
theorem Partners.append_right (h : Partners cs i j) (back : List Char) :
    Partners (cs ++ back) i j := by
  obtain ⟨before, inner, after, rfl, hi, hj, hinner⟩ := h
  refine ⟨before, inner, after ++ back, ?_, hi, hj, hinner⟩
  simp only [List.append_assoc, List.cons_append]

/-- What stands behind the opening parenthesis. -/
theorem Partners.behind (h : Partners cs i j) : ∃ inner after,
    cs.drop (i + 1) = inner ++ ')' :: after ∧ i + 1 + inner.length = j ∧ Nested true inner := by
  obtain ⟨before, inner, after, rfl, rfl, hj, hinner⟩ := h
  refine ⟨inner, after, ?_, hj, hinner⟩
  rw [← List.drop_drop, List.drop_left]
  rfl

theorem Partners.opens (h : Partners cs i j) : cs[i]? = some '(' := by
  obtain ⟨before, inner, after, rfl, rfl, -, -⟩ := h
  rw [List.getElem?_append_right (le_refl _), Nat.sub_self]
  rfl

theorem Partners.closes (h : Partners cs i j) : cs[j]? = some ')' := by
  obtain ⟨inner, after, hbehind, rfl, -⟩ := h.behind
  rw [← List.getElem?_drop, hbehind, List.getElem?_append_right (le_refl _), Nat.sub_self]
  rfl

/-- The search for the partner splits the text there. -/
theorem Partners.untilClosing_eq (h : Partners cs i j) : untilClosing 0 (cs.drop (i + 1)) =
    some ((cs.take j).drop (i + 1), cs.drop (j + 1)) := by
  obtain ⟨inner, after, hbehind, rfl, hinner⟩ := h.behind
  have hinside : (cs.take (i + 1 + inner.length)).drop (i + 1) = inner := by
    rw [List.drop_take, hbehind, Nat.add_sub_cancel_left, List.take_left]
  have hrest : cs.drop (i + 1 + inner.length + 1) = after := by
    rw [Nat.add_assoc (i + 1), ← List.drop_drop, hbehind, ← List.drop_drop, List.drop_left]
    rfl
  rw [hinside, hrest, hbehind, hinner.untilClosing_close]

/-- An opening parenthesis has one partner at most. -/
theorem Partners.unique (h : Partners cs i j) (h' : Partners cs i k) : j = k := by
  obtain ⟨inner, after, hbehind, rfl, hinner⟩ := h.behind
  obtain ⟨inner', after', hbehind', rfl, hinner'⟩ := h'.behind
  have hsplit := hinner.untilClosing_close after
  rw [← hbehind, hbehind', hinner'.untilClosing_close] at hsplit
  cases hsplit
  rfl

/-- In a text whose parentheses match each of them has a partner. -/
theorem Nested.exists_partner {commas : Bool} (h : Nested commas cs)
    (hk : cs[k]? = some '(' ∨ cs[k]? = some ')') : ∃ j, Partners cs k j ∨ Partners cs j k := by
  -- the partner of a parenthesis in a part of the text, seen from the whole
  have hpart : ∀ {cs : List Char} {k : Nat} (front back : List Char),
      (∃ j, Partners cs k j ∨ Partners cs j k) →
        ∃ j, Partners (front ++ cs ++ back) (front.length + k) j ∨
          Partners (front ++ cs ++ back) j (front.length + k) := by
    rintro cs k front back ⟨j, hj⟩
    refine ⟨front.length + j, hj.imp (fun h => ?_) fun h => ?_⟩
    · exact (h.append_left front).append_right back
    · exact (h.append_left front).append_right back
  induction h generalizing k with
  | nil => simp at hk
  | @char _ c cs hopen hclose _ _ ih =>
    cases k with
    | zero =>
      rw [List.getElem?_cons_zero, Option.some_inj, Option.some_inj] at hk
      exact absurd hk (not_or.mpr ⟨hopen, hclose⟩)
    | succ k =>
      rw [List.getElem?_cons_succ] at hk
      have h := hpart [c] [] (ih hk)
      rwa [List.append_nil, List.length_singleton, Nat.add_comm] at h
  | @comma cs _ ih =>
    cases k with
    | zero => simp at hk
    | succ k =>
      rw [List.getElem?_cons_succ] at hk
      have h := hpart [','] [] (ih hk)
      rwa [List.append_nil, List.length_singleton, Nat.add_comm] at h
  | @group _ inner cs hinner _ ihi ih =>
    have hgroup : Partners ('(' :: (inner ++ ')' :: cs)) 0 (inner.length + 1) :=
      ⟨[], inner, cs, rfl, rfl, by omega, hinner⟩
    rcases Nat.lt_trichotomy k (inner.length + 1) with hlt | rfl | hgt
    · cases k with
      | zero => exact ⟨_, .inl hgroup⟩
      | succ k =>
        rw [List.getElem?_cons_succ, List.getElem?_append_left (by omega)] at hk
        have h := hpart ['('] (')' :: cs) (ihi hk)
        rwa [List.length_singleton, Nat.add_comm, List.singleton_append] at h
    · exact ⟨0, .inr hgroup⟩
    · obtain ⟨n, rfl⟩ : ∃ n, k = inner.length + 2 + n := ⟨k - (inner.length + 2), by omega⟩
      have hfront : '(' :: (inner ++ ')' :: cs) = '(' :: (inner ++ [')']) ++ cs := by simp
      have hlength : ('(' :: (inner ++ [')'])).length = inner.length + 2 := by simp
      rw [hfront, List.getElem?_append_right (by omega), hlength, Nat.add_sub_cancel_left] at hk
      have h := hpart ('(' :: (inner ++ [')'])) [] (ih hk)
      rwa [List.append_nil, hlength, ← hfront] at h

/-! ## The first parenthesis without a partner -/

/-- What a text is: all its parentheses match, or behind a beginning where they match there is one that
closes nothing or is never closed, at the place that is given. -/
inductive Verdict : List Char → Option Nat → Prop
  | matched {cs : List Char} (h : Nested true cs) : Verdict cs none
  | unopened {before : List Char} (after : List Char) (h : Nested true before) :
      Verdict (before ++ ')' :: after) (some before.length)
  | unclosed {before after : List Char} (h : Nested true before)
      (hopen : untilClosing 0 after = none) : Verdict (before ++ '(' :: after) (some before.length)

/-- A verdict on a text is one on the text behind matching parentheses, at a place further on. -/
theorem Verdict.behind {o : Option Nat} {front : List Char} (hfront : Nested true front)
    (h : Verdict cs o) : ∃ o, Verdict (front ++ cs) o := by
  cases h with
  | matched h => exact ⟨_, .matched (hfront.append h)⟩
  | unopened after h =>
    rw [← List.append_assoc]
    exact ⟨_, .unopened after (hfront.append h)⟩
  | unclosed h hopen =>
    rw [← List.append_assoc]
    exact ⟨_, .unclosed (hfront.append h) hopen⟩

/-- There is a verdict on every text. -/
theorem exists_verdict (cs : List Char) : ∃ o, Verdict cs o := by
  induction hn : cs.length using Nat.strong_induction_on generalizing cs with
  | _ n ih =>
    cases cs with
    | nil => exact ⟨_, .matched .nil⟩
    | cons c cs =>
      rw [List.length_cons] at hn
      by_cases hopen : c = '('
      · subst hopen
        cases hsplit : untilClosing 0 cs with
        | none => exact ⟨_, @Verdict.unclosed [] cs .nil hsplit⟩
        | some parts =>
          -- the search goes on behind the partner
          obtain ⟨inner, rest⟩ := parts
          obtain ⟨rfl, hinner⟩ := nested_of_untilClosing hsplit
          have hgroup : Nested true ('(' :: (inner ++ ')' :: [])) := .group hinner .nil
          rw [List.length_append, List.length_cons] at hn
          obtain ⟨o, ho⟩ := ih rest.length (by omega) rest rfl
          have h := ho.behind hgroup
          rwa [List.cons_append, List.append_assoc, List.singleton_append] at h
      by_cases hclose : c = ')'
      · subst hclose
        exact ⟨_, @Verdict.unopened [] cs .nil⟩
      · have hchar : Nested true [c] := by
          by_cases hcomma : c = ','
          · subst hcomma
            exact .comma .nil
          · exact .char hopen hclose hcomma .nil
        obtain ⟨o, ho⟩ := ih cs.length (by omega) cs rfl
        exact ho.behind hchar

/-- As long as a parenthesis is not closed, the first place in waiting stays. -/
theorem unmatchedFrom_of_untilClosing {depth : Nat} {opened : List Nat}
    (h : untilClosing depth cs = none) (hlength : opened.length = depth + 1) (i : Nat) :
    unmatchedFrom i opened cs = opened.getLast? := by
  induction cs generalizing depth opened i with
  | nil => rfl
  | cons c cs ih =>
    by_cases hzero : c = ')' ∧ depth = 0
    · obtain ⟨rfl, rfl⟩ := hzero
      rw [untilClosing, if_pos rfl] at h
      cases h
    have hstep : c = ')' → depth ≠ 0 := fun hclose hdepth => hzero ⟨hclose, hdepth⟩
    rw [Nested.untilClosing_cons hstep, Option.map_eq_none_iff] at h
    -- at least one place is in waiting
    obtain ⟨first, waiting, rfl⟩ := List.exists_cons_of_length_eq_add_one hlength
    by_cases hopen : c = '('
    · subst hopen
      rw [if_pos rfl] at h
      rw [Nested.unmatchedFrom_open, ih h (by simp [hlength]), List.getLast?_cons_cons]
    rw [if_neg hopen] at h
    by_cases hclose : c = ')'
    · subst hclose
      rw [if_pos rfl] at h
      have hdepth := hstep rfl
      rw [List.length_cons] at hlength
      obtain ⟨second, more, rfl⟩ := List.exists_cons_of_length_pos (l := waiting) (by omega)
      rw [List.getLast?_cons_cons]
      exact ih h (by omega) (i + 1)
    · rw [if_neg hclose] at h
      rw [Nested.unmatchedFrom_char hopen hclose, ih h hlength]

theorem Verdict.unmatched?_eq {o : Option Nat} (h : Verdict cs o) : unmatched? cs = o := by
  cases h with
  | matched h => exact h.unmatched?_eq_none
  | unopened after h =>
    rw [unmatched?, h.unmatchedFrom_append, Nat.zero_add]
    rfl
  | @unclosed before after h hopen =>
    rw [unmatched?, h.unmatchedFrom_append, Nat.zero_add, Nested.unmatchedFrom_open,
      unmatchedFrom_of_untilClosing hopen rfl]
    rfl

/-- Where all parentheses match, each has its partner, whatever comes behind. -/
theorem Nested.not_lone (h : Nested true cs) (back : List Char) (hk : k < cs.length) :
    ¬ Lone (cs ++ back) k := by
  rintro ⟨hparenthesis, hnone⟩
  rw [List.getElem?_append_left hk] at hparenthesis
  obtain ⟨j, hj⟩ := h.exists_partner hparenthesis
  exact hj.elim (fun h => (hnone j).1 (h.append_right back)) fun h =>
    (hnone j).2 (h.append_right back)

/-- What is not open behind a text cannot be closed. -/
theorem lone_unopened {before : List Char} (h : Nested true before) (after : List Char) :
    Lone (before ++ ')' :: after) before.length := by
  have hhere : (before ++ ')' :: after)[before.length]? = some ')' := by
    rw [List.getElem?_append_right (le_refl _), Nat.sub_self]
    rfl
  refine ⟨.inr hhere, fun j => ⟨fun hj => ?_, fun hj => ?_⟩⟩
  · exact absurd (Option.some.inj (hhere.symm.trans hj.opens)) (by decide)
  · obtain ⟨front, inner, back, htext, rfl, hlength, hinner⟩ := hj
    have hopened : front ++ '(' :: (inner ++ ')' :: back) =
        (front ++ '(' :: inner) ++ ')' :: back := by simp
    have hbefore : before = front ++ '(' :: inner := by
      refine (List.append_inj (htext.trans hopened) ?_).1
      rw [List.length_append, List.length_cons]
      omega
    -- one more would be open at the end of what is before
    have hnone := h.openBehind_eq 0
    rw [hbefore, openBehind_append] at hnone
    obtain ⟨n, -, hn⟩ := Option.bind_eq_some_iff.mp hnone
    rw [openBehind_open, hinner.openBehind_eq] at hn
    cases hn

/-- What is never closed has no partner. -/
theorem lone_unclosed {after : List Char} (before : List Char) (hopen : untilClosing 0 after = none) :
    Lone (before ++ '(' :: after) before.length := by
  have hhere : (before ++ '(' :: after)[before.length]? = some '(' := by
    rw [List.getElem?_append_right (le_refl _), Nat.sub_self]
    rfl
  refine ⟨.inl hhere, fun j => ⟨fun hj => ?_, fun hj => ?_⟩⟩
  · have hsplit := hj.untilClosing_eq
    rw [← List.drop_drop, List.drop_left, List.drop_succ_cons, List.drop_zero, hopen] at hsplit
    cases hsplit
  · exact absurd (Option.some.inj (hhere.symm.trans hj.closes)) (by decide)

/-- The place is that of the first parenthesis without a partner. -/
theorem Verdict.lone (h : Verdict cs (some k)) : Lone cs k ∧ ∀ i < k, ¬ Lone cs i := by
  cases h with
  | unopened after h => exact ⟨lone_unopened h after, fun i hi => h.not_lone _ hi⟩
  | unclosed h hopen => exact ⟨lone_unclosed _ hopen, fun i hi => h.not_lone _ hi⟩

/-- The first parenthesis that has no partner is what the search for an unmatched one finds. -/
theorem unmatched?_eq_some_iff : unmatched? cs = some k ↔ Lone cs k ∧ ∀ i < k, ¬ Lone cs i := by
  obtain ⟨o, ho⟩ := exists_verdict cs
  rw [ho.unmatched?_eq]
  constructor
  · rintro rfl
    exact ho.lone
  · rintro ⟨hlone, hfirst⟩
    cases o with
    | none =>
      have hmatched := unmatched?_eq_none_iff.mp ho.unmatched?_eq
      have hk : k < cs.length := hlone.1.elim (fun h => (List.getElem?_eq_some_iff.mp h).1)
        fun h => (List.getElem?_eq_some_iff.mp h).1
      have hnot := hmatched.not_lone [] hk
      rw [List.append_nil] at hnot
      exact absurd hlone hnot
    | some n =>
      obtain ⟨hlone', hfirst'⟩ := ho.lone
      rcases Nat.lt_trichotomy n k with hlt | rfl | hgt
      · exact absurd hlone' (hfirst n hlt)
      · rfl
      · exact absurd hlone (hfirst' k hgt)

/-! ## The three ways agree -/

/-- The parentheses of each argument match, if those of all arguments together do. -/
theorem arguments_matched (h : Nested true cs) : ∀ piece ∈ arguments cs, Nested true piece := by
  intro piece hpiece
  obtain ⟨hpiece, -⟩ := List.mem_filter.mp hpiece
  obtain ⟨whole, hwhole, rfl⟩ := List.mem_map.mp hpiece
  exact Reader.nested_trimBlanks (h.of_mem_cutAtCommas whole hwhole)

/-- The search for a parenthesis without a partner finds the first one, and none just in texts whose
parentheses match. In those, every opening parenthesis has a partner, where the text behind it is split;
and what is between the two, and each piece of that between commas, is again such a text. -/
theorem parentheses_agree (cs : List Char) :
    (unmatched? cs = none ↔ Nested true cs) ∧
      (∀ k, unmatched? cs = some k ↔ Lone cs k ∧ ∀ i < k, ¬ Lone cs i) ∧
      (unmatched? cs = none → ∀ i, cs[i]? = some '(' → ∃ j inner,
        Partners cs i j ∧ (∀ k, Partners cs i k → k = j) ∧ (cs.take j).drop (i + 1) = inner ∧
          untilClosing 0 (cs.drop (i + 1)) = some (inner, cs.drop (j + 1)) ∧
          unmatched? inner = none ∧ (∀ piece ∈ cutAtCommas 0 inner, unmatched? piece = none) ∧
          ∀ piece ∈ arguments inner, unmatched? piece = none) := by
  refine ⟨unmatched?_eq_none_iff, fun k => unmatched?_eq_some_iff, fun hnone i hi => ?_⟩
  have hmatched := unmatched?_eq_none_iff.mp hnone
  obtain ⟨j, hj⟩ : ∃ j, Partners cs i j := by
    obtain ⟨j, hj | hj⟩ := hmatched.exists_partner (.inl hi)
    · exact ⟨j, hj⟩
    · exact absurd (Option.some.inj (hi.symm.trans hj.closes)) (by decide)
  have hsplit := hj.untilClosing_eq
  obtain ⟨-, hinner⟩ := nested_of_untilClosing hsplit
  refine ⟨j, _, hj, fun k hk => hk.unique hj, rfl, hsplit, hinner.unmatched?_eq_none,
    fun piece hpiece => ?_, fun piece hpiece => ?_⟩
  · exact (hinner.of_mem_cutAtCommas piece hpiece).unmatched?_eq_none
  · exact (arguments_matched hinner piece hpiece).unmatched?_eq_none

end Mathpad.Brackets
