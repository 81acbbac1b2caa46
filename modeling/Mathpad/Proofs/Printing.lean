import Mathpad.Proofs.Figures
import Mathpad.Proofs.TypedTerms

/-!
# Reading what was printed

The text of a simplified term is an expression, and that has the value of the term as soon as
each constant of the term counts as the number that its own text is read as. The powers with
an exponent or a base that is written without the parentheses it needs are left out.
-/
set_option autoImplicit false

namespace Mathpad

/-! ## Values under an assignment -/

namespace Expr

mutual

/-- Puts values in the places of all variables. -/
def assign (ρ : String → Number) : Expr → Expr
  | number x => .number x
  | var name => .number (ρ name)
  | sqrt inner => .sqrt (inner.assign ρ)
  | parentheses inner => .parentheses (inner.assign ρ)
  | power base exponent => .power (base.assign ρ) (exponent.assign ρ)
  | binary op left right => .binary op (left.assign ρ) (right.assign ρ)
  | call f args => .call f (assignAll ρ args)

/-- Puts values in the places of all variables of some expressions. -/
def assignAll (ρ : String → Number) : List Expr → List Expr
  | [] => []
  | e :: es => e.assign ρ :: assignAll ρ es

end

end Expr

/-- The number that the text of a number is read as. -/
def Number.reread (settings : EvalSettings) (x : Number) : Outcome Number := do
  (← Expr.ofText x.text).eval settings

/-- The expression has every value that the term has when its constants are read again. -/
def Agrees (e : Expr) (t : Term) : Prop :=
  ∀ (settings : EvalSettings) (ρ : String → Number) (v : Number),
    t.eval settings (Number.reread settings) ρ = .ok v → (e.assign ρ).eval settings = .ok v

/-- The text is that of an expression of a level, which has the values of the term. -/
def Renders (l : Level) (cs : List Char) (t : Term) : Prop :=
  ∃ row e, Reader.Spells cs row ∧ Derives l row e ∧ Agrees e t

namespace Renders

variable {l l' : Level} {cs : List Char} {t : Term}

/-- The text of an expression of one level is that of an expression of every level that takes those
in. -/
theorem imp (h : Renders l cs t) (hl : ∀ {row e}, Derives l row e → Derives l' row e) :
    Renders l' cs t := by
  obtain ⟨row, e, hs, hd, ha⟩ := h
  exact ⟨row, e, hs, hl hd, ha⟩

/-- In parentheses everything is a unit. -/
theorem group (h : Renders .sum cs t) : Renders .unit ('(' :: cs ++ [')']) t := by
  obtain ⟨row, e, hs, hd, ha⟩ := h
  refine ⟨_, _, hs.group, .parentheses hd, fun settings ρ v hv => ?_⟩
  rw [Expr.assign, Expr.eval]
  exact ha settings ρ v hv

end Renders

/-! ## Numbers -/

namespace Number

variable {minus quotient : Bool} {cs : List Char} {e : Expr}

/-- No number is too long for a text: it has at most two literals, of at most 100 characters each.
-/
theorem Spelled.short (h : Spelled minus quotient cs e) : cs.length ≤ Reader.lengthLimit := by
  rw [Reader.lengthLimit]
  cases h with
  | literal h =>
    have := h.short
    omega
  | negative h =>
    have := h.short
    rw [List.length_cons]
    omega
  | quotient hm hn =>
    have hm := hm.short
    have hn := hn.short
    rw [List.length_append, List.length_cons]
    omega
  | negativeQuotient hm hn =>
    have hm := hm.short
    have hn := hn.short
    rw [List.length_cons, List.length_append, List.length_cons]
    omega

/-- There are no variables in a number. -/
theorem Spelled.assign_eq (h : Spelled minus quotient cs e) (ρ : String → Number) :
    e.assign ρ = e := by
  cases h <;> rfl

end Number

open Reader

/-- The text of a literal is read as its digits and its point. -/
theorem Figure.spells {cs : List Char} {n : Numeral} (h : Figure cs n) : Spells cs n.row :=
  h.row_eq ▸ Spells.numerals h.numerals h.ne_nil

/-- The digits of a literal are a unit, as its number is in range. -/
theorem Figure.derives {cs : List Char} {n : Numeral} (h : Figure cs n) :
    Derives .unit n.row (.number n.number) := .literal n h.inRange

/-- What is written for a literal is also read as an exponent. -/
theorem Figure.spellsExponent {cs : List Char} {n : Numeral} (h : Figure cs n) :
    SpellsExponent cs n.row :=
  h.row_eq ▸ SpellsExponent.numerals h.numerals h.ne_nil

/-- A literal has no sign. -/
theorem Figure.head_ne {cs : List Char} {n : Numeral} (h : Figure cs n) :
    cs.head? ≠ some '-' := by
  intro hminus
  have := h.numerals '-' (List.mem_of_mem_head? hminus)
  cases this

/-- The text of a number is that of a term: a literal, a quotient of two, and perhaps a minus in
front. -/
theorem Number.Spelled.spells {minus quotient : Bool} {cs : List Char} {e : Expr}
    (h : Spelled minus quotient cs e) : ∃ row, Spells cs row ∧ Derives .term row e := by
  have hminus : ∀ {n : Numeral}, n.InRange →
      Derives .term (Item.minus :: n.row) (.number n.number.opposite) := fun hn =>
    .single (.alone (.signed 1 (.bare (.literal _ hn))))
  cases h with
  | literal h => exact ⟨_, h.spells, h.derives.term_of_unit⟩
  | negative h => exact ⟨_, h.spells.minus, hminus h.inRange⟩
  | quotient hm hn =>
    exact ⟨_, hm.spells.operator .divide hn.spells, .multiplied rfl hm.derives.term_of_unit
      (Derives.bare hn.derives).factor_of_raised⟩
  | negativeQuotient hm hn =>
    refine ⟨_, (hm.spells.operator .divide hn.spells).minus, ?_⟩
    rw [← List.cons_append]
    exact .multiplied rfl (hminus hm.inRange) (Derives.bare hn.derives).factor_of_raised

namespace Number

/-- A literal could have the digits of the number: decimals are not beyond the largest one. -/
def WithinLiterals : Number → Prop
  | ratio .. => True
  | decimal v _ => v.digits * 10 ^ v.exponent.toNat ≤ maxMagnitude

/-- Every number that can be stored has such a text, if no literal in it is too large. -/
theorem exists_spelled {x : Number} (h : x.Stored) (hx : x.WithinLiterals) :
    ∃ e, Spelled x.isNegative x.isQuotient x.text.toList e := by
  cases h with
  | ratio hq =>
    obtain ⟨e, he, -⟩ := spelled_ofRat hq
    exact ⟨e, he⟩
  | decimal hv a =>
    obtain ⟨y, hy, -, -⟩ := spelled_decimal hv hx a
    exact ⟨_, hy⟩

variable {x : Number} {minus quotient : Bool} {e : Expr}

/-- Reading the text of a number again is evaluating the expression that it spells. -/
theorem reread_eq (h : Spelled minus quotient x.text.toList e) (settings : EvalSettings) :
    reread settings x = e.eval settings := by
  obtain ⟨row, hs, hd⟩ := h.spells
  have hread := hs.ofText_eq h.short (.lone hd)
  rw [String.ofList_toList] at hread
  rw [reread, hread, ok_bind]

/-- The expression that the text of a number spells has the value of the number, read again. -/
theorem agrees_number (h : Spelled minus quotient x.text.toList e) : Agrees e (.number x) := by
  intro settings ρ v hv
  rw [h.assign_eq]
  rw [Term.eval, reread_eq h] at hv
  exact hv

end Number

/-! ## The text of a part -/

namespace Term

/-- A fraction without a minus sign, which has no parentheses anywhere. -/
def isFraction : Term → Bool
  | number x => x.isQuotient && !x.isNegative
  | _ => false

/-- Whether the term is a call. -/
def isCall : Term → Bool
  | call .. => true
  | _ => false

/-- The text of a term as a member of a sum. -/
def summandText : Term → List Char
  | product us => (product us).chars
  | t => wrap t t.chars

/-- The texts of a term in every place in which it may stand are those of expressions with its
values, but for a fraction as a base or an exponent and a call as an exponent. -/
structure Rendered (t : Term) : Prop where
  alone : Renders .sum t.chars t
  unit : t.isFraction = false → Renders .unit (wrap t t.chars) t
  term : Renders .term (wrap t t.chars) t
  summand : Renders .term (summandText t) t
  summand_head : (summandText t).head? ≠ some '-'
  exponent : t.isFraction = false → t.isCall = false →
    ∃ row e, SpellsExponent (wrap t t.chars) row ∧ Derives .sum row e ∧ Agrees e t

/-- A term that is not atomic has parentheses around its text. -/
theorem wrap_of_compound {t : Term} (h : t.isAtomic = false) (cs : List Char) :
    wrap t cs = '(' :: cs ++ [')'] := by
  rw [wrap, h, Bool.false_and, if_neg Bool.false_ne_true]

/-- The text of an atomic term has no parentheses around it unless it begins with a minus. -/
theorem wrap_of_head {t : Term} (h : t.isAtomic = true) {cs : List Char} (hh : cs.head? ≠ some '-') :
    wrap t cs = cs := by
  rw [wrap, if_pos]
  simp [h, hh]

/-- What begins with a minus has parentheses around it, be it atomic or not. -/
theorem wrap_minus (t : Term) (cs : List Char) : wrap t ('-' :: cs) = '(' :: '-' :: cs ++ [')'] := by
  rw [wrap, if_neg]
  simp

/-- There are parentheses around whatever begins with a minus sign. -/
theorem head_wrap_ne (t : Term) (cs : List Char) : (wrap t cs).head? ≠ some '-' := by
  unfold wrap
  split
  · next h =>
    obtain ⟨-, hne⟩ := Bool.and_eq_true_iff.mp h
    simpa using hne
  · simp

/-- A term in parentheses. -/
theorem rendered_of_parentheses {t : Term} (h : Renders .sum t.chars t)
    (hs : Renders .term (summandText t) t) (hh : (summandText t).head? ≠ some '-') (hw : wrap t t.chars = '(' :: t.chars ++ [')']) :
    Rendered t where
  alone := h
  unit _ := hw ▸ h.group
  term := hw ▸ h.group.imp Derives.term_of_unit
  summand := hs
  summand_head := hh
  exponent _ _ := by
    obtain ⟨row, e, hs, hd, ha⟩ := h
    rw [hw]
    exact ⟨row, e, .group hs, hd, ha⟩

/-- Any member of a sum but a product is written as it is in a product. -/
theorem summandText_eq_wrap {t : Term} (h : ∀ us, t ≠ product us) :
    summandText t = wrap t t.chars := by
  unfold summandText
  split
  · exact absurd rfl (h _)
  · rfl

/-- It is enough that the text of a compound term is read as a sum: everywhere else it has
parentheses. -/
theorem rendered_of_compound {t : Term} (h : t.isAtomic = false) (hp : ∀ us, t ≠ product us)
    (hr : Renders .sum t.chars t) : Rendered t := by
  have hw := wrap_of_compound h t.chars
  have hsummand := summandText_eq_wrap hp
  refine rendered_of_parentheses hr ?_ (hsummand ▸ head_wrap_ne t t.chars) hw
  rw [hsummand, hw]
  exact hr.group.imp Derives.term_of_unit

/-- A term that needs no parentheses. -/
theorem rendered_of_unit {t : Term} (hatomic : t.isAtomic = true) (h : Renders .unit t.chars t)
    (hhead : t.chars.head? ≠ some '-') (hexponent : t.isCall = false →
      ∃ row e, SpellsExponent t.chars row ∧ Derives .sum row e ∧ Agrees e t) : Rendered t := by
  have hw := wrap_of_head hatomic hhead
  have hterm : Renders .term t.chars t := h.imp Derives.term_of_unit
  have hsummand : summandText t = wrap t t.chars := summandText_eq_wrap fun us hus => by
    rw [hus] at hatomic
    cases hatomic
  refine ⟨hterm.imp .lone, fun _ => ?_, ?_, ?_, hsummand ▸ head_wrap_ne t t.chars,
    fun _ hcall => ?_⟩
  · rw [hw]
    exact h
  · rw [hw]
    exact hterm
  · rw [hsummand, hw]
    exact hterm
  · rw [hw]
    exact hexponent hcall

/-- A number is written such that it can be read in every place but those of a fraction. -/
theorem rendered_number {x : Number} (h : x.Stored) (hx : x.WithinLiterals) :
    Rendered (number x) := by
  obtain ⟨e, he⟩ := x.exists_spelled h hx
  have hagrees := Number.agrees_number he
  obtain ⟨row, hs, hd⟩ := he.spells
  have hterm : Renders .term (number x).chars (number x) := ⟨row, e, hs, hd, hagrees⟩
  have hsummand : summandText (number x) = wrap (number x) (number x).chars := rfl
  -- only the form of the text matters from here on
  generalize hminus : x.isNegative = minus at he
  generalize hquotient : x.isQuotient = quotient at he
  generalize htext : x.text.toList = cs at he
  have hchars : (number x).chars = cs := htext
  cases he with
  | literal hn =>
    refine rendered_of_unit rfl ?_ (hchars ▸ hn.head_ne) fun _ => ?_
    · rw [hchars]
      exact ⟨_, _, hn.spells, hn.derives, hagrees⟩
    · rw [hchars]
      exact ⟨_, _, hn.spellsExponent, .lone hn.derives.term_of_unit, hagrees⟩
  | quotient hm hn =>
    have hfraction : (number x).isFraction = true := by simp [isFraction, hminus, hquotient]
    have hhead : (number x).chars.head? ≠ some '-' := by
      obtain ⟨c, ds, rfl⟩ := List.exists_cons_of_ne_nil hm.ne_nil
      rw [hchars]
      exact hm.head_ne
    have hw := wrap_of_head (t := number x) rfl hhead
    refine ⟨hterm.imp .lone, fun hnot => absurd hfraction (by simp [hnot]), ?_, ?_,
      hsummand ▸ head_wrap_ne _ _, fun hnot => absurd hfraction (by simp [hnot])⟩
    · rw [hw]
      exact hterm
    · rw [hsummand, hw]
      exact hterm
  | negative | negativeQuotient =>
    have hw : wrap (number x) (number x).chars = '(' :: (number x).chars ++ [')'] := by
      rw [hchars]
      exact wrap_minus _ _
    refine rendered_of_parentheses (hterm.imp .lone) ?_ (hsummand ▸ head_wrap_ne _ _) hw
    rw [hsummand, hw]
    exact (hterm.imp .lone).group.imp Derives.term_of_unit

/-- A variable is written as its letter, which is a unit. -/
theorem rendered_var {name : String} (h : IsLetter name) : Rendered (var name) := by
  obtain ⟨c, hc, rfl⟩ := h
  have hchars : (var (String.singleton c)).chars = [c] := String.toList_singleton c
  have hagrees : Agrees (.var (String.singleton c)) (var (String.singleton c)) :=
    fun settings ρ v hv => hv
  refine rendered_of_unit rfl ?_ ?_ fun _ => ?_
  · rw [hchars]
    exact ⟨_, _, .letter hc, .variable _, hagrees⟩
  · rw [hchars]
    intro h
    rw [Option.some.inj h] at hc
    cases hc
  · rw [hchars]
    exact ⟨_, _, .letter hc, .lone (Derives.variable _).term_of_unit, hagrees⟩

/-! ## Calls -/

theorem charsAll_eq_map (ts : List Term) : charsAll ts = ts.map chars := by
  induction ts with
  | nil => rfl
  | cons t ts ih => rw [charsAll, ih, List.map_cons]

/-- What the arguments of a call are read as. -/
structure ArgumentsRead (ts : List Term) (rows : List Row) (es : List Expr) : Prop where
  spells : List.Forall₂ Spells (ts.map chars) rows
  length_eq : rows.length = es.length
  derives : ∀ p ∈ rows.zip es, Derives .sum p.1 p.2
  agrees : ∀ (settings : EvalSettings) (ρ : String → Number) (vs : List Number),
    evalAll settings (Number.reread settings) ρ ts = .ok vs →
      Expr.evalAll settings (Expr.assignAll ρ es) = .ok vs

/-- The arguments of a call are read one by one, and have their values one by one. -/
theorem exists_argumentsRead {ts : List Term} (h : ∀ t ∈ ts, Renders .sum t.chars t) :
    ∃ rows es, ArgumentsRead ts rows es := by
  induction ts with
  | nil => exact ⟨[], [], .nil, rfl, by simp, fun settings ρ vs hv => hv⟩
  | cons t ts ih =>
    obtain ⟨row, e, hs, hd, ha⟩ := h t (by simp)
    obtain ⟨rows, es, hall⟩ := ih fun u hu => h u (by simp [hu])
    refine ⟨row :: rows, e :: es, .cons hs hall.spells, by simp [hall.length_eq], fun p hp => ?_,
      fun settings ρ vs hv => ?_⟩
    · rcases List.mem_cons.mp hp with rfl | hp
      · exact hd
      · exact hall.derives p hp
    · obtain ⟨x, hx, hv⟩ := Outcome.bind_eq_ok.mp hv
      obtain ⟨xs, hxs, hv⟩ := Outcome.bind_eq_ok.mp hv
      rw [Expr.assignAll, Expr.evalAll, ha settings ρ x hx, ok_bind, hall.agrees settings ρ xs hxs]
      exact hv

/-- A call is written with its arguments in its own parentheses, and read as a unit. -/
theorem rendered_call {f : NamedFunction} {ts : List Term} (hlen : ts.length = f.arity)
    (h : ∀ t ∈ ts, Rendered t) : Rendered (call f ts) := by
  obtain ⟨rows, es, hall⟩ := exists_argumentsRead fun t ht => (h t ht).alone
  have hchars : (call f ts).chars =
      f.name.toList ++ ('(' :: [','].intercalate (ts.map chars) ++ [')']) := by
    rw [chars, charsAll_eq_map, List.append_assoc]
  refine rendered_of_unit rfl ?_ ?_ (fun hcall => absurd hcall (by simp [isCall]))
  · rw [hchars]
    refine ⟨_, _, .call hall.spells (by simpa using hlen), .call f hall.length_eq hall.derives,
      fun settings ρ v hv => ?_⟩
    obtain ⟨vs, hvs, hv⟩ := Outcome.bind_eq_ok.mp hv
    rw [Expr.assign, Expr.eval, hall.agrees settings ρ vs hvs]
    exact hv
  · obtain ⟨c, tail, hname, hc, -⟩ := name_letters (.function f)
    rw [hchars, show f.name.toList = c :: tail from hname]
    intro hminus
    rw [Option.some.inj hminus] at hc
    cases hc

/-! ## Powers -/

/-- A power can be read if neither its base nor its exponent is a fraction and the exponent no call:
those are written without the parentheses that they need. -/
theorem rendered_power {b e : Term} (hb : Rendered b) (he : Rendered e)
    (hbase : b.isFraction = false) (hexponent : e.isFraction = false) (hcall : e.isCall = false) :
    Rendered (power b e) := by
  refine rendered_of_compound rfl (fun us => by simp) ?_
  obtain ⟨row, base, hs, hd, ha⟩ := hb.unit hbase
  obtain ⟨xrow, x, hxs, hxd, hxa⟩ := he.exponent hexponent hcall
  refine ⟨_, _, hs.power hxs hxd.ne_nil,
    .lone (.single (Derives.power (.bare hd) hxd).factor_of_raised), fun settings ρ v hv => ?_⟩
  obtain ⟨p, hp, hv⟩ := Outcome.bind_eq_ok.mp hv
  obtain ⟨q, hq, hv⟩ := Outcome.bind_eq_ok.mp hv
  rw [Expr.assign, Expr.eval, ha settings ρ p hp, ok_bind, hxa settings ρ q hq]
  exact hv

/-! ## Sums and products -/

end Term

namespace Operation

/-- The sign between the members of an operation. -/
def sign : Operation → BinaryOp
  | product => .multiply
  | sum => .add

/-- What an expression with this operation is a part of. -/
def level : Operation → Level
  | product => .term
  | sum => .sum

/-- What the members are, apart from the first one. -/
def memberLevel : Operation → Level
  | product => .factor
  | sum => .term

/-- What stands behind the sign of an operation belongs to the operation. -/
theorem derives_join (op : Operation) {row next : Row} {e f : Expr} (h : Derives op.level row e)
    (hn : Derives op.memberLevel next f) :
    Derives op.level (row ++ .token op.sign.token :: next) (.binary op.sign e f) := by
  cases op with
  | product => exact .multiplied rfl h hn
  | sum => exact .added rfl h hn

theorem apply_sign (op : Operation) : op.sign.apply = op.combine := by
  cases op <;> rfl

end Operation

namespace Term

/-- One member more, behind the sign of the operation. -/
theorem renders_join {op : Operation} {cs ds : List Char} {us : List Term} {t : Term}
    (hne : us ≠ []) (h : Renders op.level cs (op.apply us)) (ht : Renders op.memberLevel ds t) :
    Renders op.level (cs ++ op.sign.char :: ds) (op.apply (us ++ [t])) := by
  obtain ⟨row, e, hs, hd, ha⟩ := h
  obtain ⟨next, f, hns, hnd, hna⟩ := ht
  refine ⟨_, _, hs.operator op.sign hns, op.derives_join hd hnd, fun settings ρ v hv => ?_⟩
  rw [eval_apply, List.mapM_append] at hv
  obtain ⟨vs, hvs, hv⟩ := Outcome.bind_eq_ok.mp hv
  obtain ⟨xs, hxs, hvs⟩ := Outcome.bind_eq_ok.mp hvs
  obtain ⟨ys, hys, hvs⟩ := Outcome.bind_eq_ok.mp hvs
  obtain rfl := Except.ok.inj hvs
  rw [List.mapM_cons, List.mapM_nil] at hys
  obtain ⟨y, hy, hys⟩ := Outcome.bind_eq_ok.mp hys
  obtain rfl := Except.ok.inj hys
  -- the members in front are at least one, so that theirs is a total of its own
  have hxne : xs ≠ [] := by
    have hlen := (forall₂_of_mapM hxs).length_eq
    rintro rfl
    exact hne (List.length_eq_zero_iff.mp hlen)
  rw [op.total_append hxne] at hv
  obtain ⟨w, hw, hv⟩ := Outcome.bind_eq_ok.mp hv
  have hleft : (op.apply us).eval settings (Number.reread settings) ρ = .ok w := by
    rw [eval_apply, hxs]
    exact hw
  rw [Expr.assign, Expr.eval, ha settings ρ w hleft, ok_bind, hna settings ρ y hy, op.apply_sign]
  exact hv

/-- Texts with a character between them. -/
def joined (c : Char) : List (List Char) → List Char
  | [] => []
  | p :: ps => p ++ ps.flatMap (c :: ·)

/-- Writing a character between texts is the same as writing it in front of all but the first. -/
theorem intercalate_eq_joined (c : Char) (ps : List (List Char)) :
    [c].intercalate ps = joined c ps := by
  induction ps with
  | nil => rfl
  | cons p ps ih =>
    match ps, ih with
    | [], _ => simp [joined]
    | q :: qs, ih =>
      rw [List.intercalate_cons_cons, ih]
      simp [joined]

/-- The members of an operation, with its sign between them, are read from the left, as they are
combined. -/
theorem renders_joined (op : Operation) (text : Term → List Char) {t : Term} {ts : List Term}
    (h : Renders op.level (text t) t) (hts : ∀ u ∈ ts, Renders op.memberLevel (text u) u) :
    Renders op.level (joined op.sign.char ((t :: ts).map text)) (op.apply (t :: ts)) := by
  -- the members are added to those that are joined already
  have hall : ∀ (ts us : List Term) (cs : List Char), us ≠ [] → Renders op.level cs (op.apply us) →
      (∀ u ∈ ts, Renders op.memberLevel (text u) u) →
      Renders op.level (cs ++ (ts.map text).flatMap (op.sign.char :: ·)) (op.apply (us ++ ts)) := by
    intro ts
    induction ts with
    | nil =>
      intro us cs _ h _
      simpa using h
    | cons u ts ih =>
      intro us cs hne h hts
      have hnext := ih (us ++ [u]) _ (by simp) (renders_join hne h (hts u (by simp)))
        fun v hv => hts v (by simp [hv])
      simpa using hnext
  have hfirst : Renders op.level (text t) (op.apply [t]) := by
    obtain ⟨row, e, hs, hd, ha⟩ := h
    refine ⟨row, e, hs, hd, fun settings ρ v hv => ha settings ρ v ?_⟩
    rw [eval_apply, List.mapM_cons, List.mapM_nil] at hv
    obtain ⟨vs, hvs, hv⟩ := Outcome.bind_eq_ok.mp hv
    obtain ⟨x, hx, hvs⟩ := Outcome.bind_eq_ok.mp hvs
    obtain rfl := Except.ok.inj hvs
    rw [hx]
    exact hv
  exact hall ts [t] (text t) (by simp) hfirst hts

theorem wrappedAll_eq_map (ts : List Term) : wrappedAll ts = ts.map fun t => wrap t t.chars := by
  induction ts with
  | nil => rfl
  | cons t ts ih => rw [wrappedAll, ih, List.map_cons]

theorem summandTexts_eq_map (ts : List Term) : summandTexts ts = ts.map summandText := by
  induction ts with
  | nil => rfl
  | cons t ts ih => cases t <;> rw [summandTexts, ih] <;> first | rfl | simp

/-- Where no member begins with a minus, a plus stands between all of them. -/
theorem joinSummands_eq_joined {ps : List (List Char)} (h : ∀ p ∈ ps, p.head? ≠ some '-') :
    joinSummands ps = joined '+' ps := by
  match ps with
  | [] => rfl
  | p :: ps =>
    rw [joinSummands, joined]
    congr 1
    exact List.flatMap_congr fun q hq => if_neg (h q (by simp [hq]))

/-- The text of a product has the members in it, with a multiplication sign between them. -/
theorem chars_product (ts : List Term) :
    (product ts).chars = joined '*' (ts.map fun t => wrap t t.chars) := by
  rw [chars, wrappedAll_eq_map, intercalate_eq_joined]

/-- The text of a sum has the members in it, with a plus between them: none begins with a minus, as
it has parentheses then. -/
theorem chars_sum {ts : List Term} (h : ∀ t ∈ ts, Rendered t) :
    (sum ts).chars = joined '+' (ts.map summandText) := by
  rw [chars, summandTexts_eq_map, joinSummands_eq_joined]
  intro p hp
  obtain ⟨t, ht, rfl⟩ := List.mem_map.mp hp
  exact (h t ht).summand_head

theorem isFraction_of_not_isNumber {t : Term} (h : t.isNumber = false) : t.isFraction = false := by
  cases t with
  | number x => cases h
  | _ => rfl

/-- A product can be read if its members can and no member but the first is a number: a fraction
that is not the first would be divided by, and so would what stands before it. -/
theorem rendered_product {t : Term} {ts : List Term} (ht : Rendered t)
    (hts : ∀ u ∈ ts, Rendered u) (hnumbers : ∀ u ∈ ts, u.isNumber = false) :
    Rendered (product (t :: ts)) := by
  have hterm : Renders .term (product (t :: ts)).chars (product (t :: ts)) := by
    rw [chars_product]
    refine renders_joined .product (fun t => wrap t t.chars) ht.term fun u hu => ?_
    exact ((hts u hu).unit (isFraction_of_not_isNumber (hnumbers u hu))).imp fun hd =>
      (Derives.bare hd).factor_of_raised
  refine rendered_of_parentheses (hterm.imp .lone) hterm ?_ (wrap_of_compound rfl _)
  -- the text begins with that of the first member
  obtain ⟨row, e, hs, -, -⟩ := ht.term
  obtain ⟨c, tail, hw, -⟩ := hs.head
  have hhead := head_wrap_ne t t.chars
  rw [hw] at hhead
  rw [summandText, chars_product, List.map_cons, hw, joined]
  exact hhead

/-- A sum can be read if its members can. -/
theorem rendered_sum {t : Term} {ts : List Term} (h : ∀ u ∈ t :: ts, Rendered u) :
    Rendered (sum (t :: ts)) := by
  refine rendered_of_compound rfl (fun us => by simp) ?_
  rw [chars_sum h]
  exact renders_joined .sum summandText ((h t (by simp)).summand.imp .lone) fun u hu =>
    (h u (by simp [hu])).summand

/-! ## Settled terms -/

/-- In a settled sum or product only the first member can be a number. -/
theorem OperationSettled.exists_cons {op : Operation} {ts : List Term}
    (h : OperationSettled op ts) : ∃ t us, ts = t :: us ∧ ∀ u ∈ us, u.isNumber = false := by
  obtain ⟨t, us, rfl⟩ := List.exists_cons_of_ne_nil (l := ts) (by
    rintro rfl
    exact absurd h.two_le_length (by simp))
  refine ⟨t, us, rfl, ?_⟩
  cases t with
  | number x => exact h.tail
  | _ => exact fun u hu => isNumber_of_head rfl h.sorted u (List.mem_cons_of_mem _ hu)

/-- The powers of the term have the parentheses that they need, and no constant is beyond the
literals. -/
def LegibleHere : Term → Prop
  | number x => x.WithinLiterals
  | power b e => b.isFraction = false ∧ e.isFraction = false ∧ e.isCall = false
  | _ => True

/-- Everything in the term is written such that it can be read. -/
def Legible (t : Term) : Prop := Everywhere LegibleHere t

/-- The texts of a simplified term are those of expressions with its values. -/
theorem rendered {t : Term} (ht : typed.In t) (hs : Settled t) (hl : Legible t) : Rendered t := by
  induction t using parts_induction with
  | number x => exact rendered_number ht.number hl.here
  | var name => exact rendered_var ht.here
  | product ts ih =>
    have hsettled : OperationSettled .product ts := settledHere_apply.mp hs.here
    obtain ⟨t, us, rfl, hus⟩ := hsettled.exists_cons
    have hall : ∀ u ∈ t :: us, Rendered u := fun u hu =>
      ih u hu (ht.members .product u hu) (hs.members .product u hu) (hl.members .product u hu)
    exact rendered_product (hall t (by simp)) (fun u hu => hall u (by simp [hu])) hus
  | power b e ihb ihe =>
    obtain ⟨hb, he, hcall⟩ := hl.here
    exact rendered_power (ihb ht.base hs.base hl.base) (ihe ht.exponent hs.exponent hl.exponent)
      hb he hcall
  | sum ts ih =>
    have hsettled : OperationSettled .sum ts := settledHere_apply.mp hs.here
    obtain ⟨t, us, rfl, -⟩ := hsettled.exists_cons
    exact rendered_sum fun u hu =>
      ih u hu (ht.members .sum u hu) (hs.members .sum u hu) (hl.members .sum u hu)
  | call f ts ih =>
    exact rendered_call ht.here fun u hu => ih u hu (ht.inside u hu) (hs.inside u hu) (hl.inside u hu)

end Term

end Mathpad
