import Mathpad.Proofs.Everywhere
import Mathpad.Proofs.Refusals

/-!
# Reading finds a derivation or a failure

The converse of the two modules before: whatever is read is derived, and whatever is
refused fails for the reason given. Each reading function is followed along its text. What
it has read is an expression of its level; a fault that it meets is a failure of the whole
row, whatever stands before the place, as long as reading can be at this place at all.

With this the grammar decides the outcome of reading for every row.
-/
set_option autoImplicit false

namespace Mathpad

open Mathpad.Expr Mathpad.Part

/-! ## Rows that go on -/

/-- An expression of a level is still one when `next` follows. -/
def Level.Accepts (l : Level) (next : Row) : Prop :=
  ∀ ⦃row : Row⦄ ⦃e : Expr⦄, Derives l row e → Ends row next → ∃ e', Derives l (row ++ next) e'

variable {next : Row}

/-- A factor accepts whatever goes on with its last signed unit. -/
theorem Level.Accepts.of_last
    (h : ∀ ⦃row : Row⦄ ⦃e : Expr⦄, Derives .signed row e → Ends row next →
      ∃ e', Derives .factor (row ++ next) e') : Level.factor.Accepts next
  | _, _, .alone hrow, hends => h hrow hends
  | _, _, @Derives.juxtaposed _ last _ _ hrow hlast starts ends, hends => by
    have hne : last ≠ [] := starts.ne_nil
    obtain ⟨e', hnext⟩ := Level.Accepts.of_last h hlast
      (hends.congr (openLiteral_append_of_ends ends hne))
    rw [List.append_assoc]
    exact ⟨_, .juxtaposed hrow hnext (starts.append next) ((ends_append_iff hne next).mpr ends)⟩

section Joined

variable {part whole : Level} {additive : Bool}

/-- A whole accepts what its last part accepts. -/
theorem Level.Joined.accepts (j : Level.Joined part whole additive) (h : part.Accepts next) :
    whole.Accepts next := by
  intro row e hrow hends
  obtain hpart | ⟨op, first, last, a, b, hop, rfl, hfirst, hlast⟩ := j.single_or_join hrow
  · obtain ⟨e', hnext⟩ := h hpart hends
    exact ⟨e', j.single hnext⟩
  · obtain ⟨e', hnext⟩ := h hlast (hends.congr (openLiteral_append_operator _ _ _))
    rw [List.append_assoc, List.cons_append]
    exact ⟨_, j.join hop hfirst hnext⟩

/-- An operator goes on with everything before it when an operand is behind it. -/
theorem Level.Joined.accepts_operand (j : Level.Joined part whole additive) {op : BinaryOp}
    (hop : op.isAdditive = additive) {e : Expr} (hnext : Derives part next e) :
    whole.Accepts (.token op.token :: next) :=
  fun _ _ hrow _ => ⟨_, j.join hop hrow hnext⟩

end Joined

theorem Level.Accepts.sum (h : Level.factor.Accepts next) : Level.sum.Accepts next :=
  Level.sum_joined.accepts (Level.term_joined.accepts h)

/-- A power goes on with the last unit. -/
theorem Level.Accepts.power {exponent : Row} {x : Expr} (hx : Derives .sum exponent x) :
    Level.sum.Accepts [.power exponent] :=
  (Level.Accepts.of_last fun _ _ hrow _ => by
    cases hrow with
    | signed k hrow =>
      rw [List.append_assoc]
      exact ⟨_, .alone (.signed k (.power hrow hx))⟩).sum

/-- A factor goes on with the last factor. -/
theorem Level.Accepts.juxtaposed {e : Expr} (hnext : Derives .factor next e)
    (starts : StartsFactor next) : Level.sum.Accepts next :=
  (Level.Accepts.of_last fun _ _ hrow hends =>
    ⟨_, .juxtaposed hrow hnext starts hends⟩).sum

/-- A factor behind an operator goes on with the last term. -/
theorem Level.Accepts.multiplied {op : BinaryOp} (additive : op.isAdditive = false) {e : Expr}
    (hnext : Derives .factor next e) : Level.sum.Accepts (.token op.token :: next) :=
  Level.sum_joined.accepts (Level.term_joined.accepts_operand additive hnext)

/-- More minus signs before a factor. -/
theorem Derives.minuses_append (k : Nat) {row : Row} {e : Expr} (h : Derives .factor row e) :
    ∃ e', Derives .factor (List.replicate k Item.minus ++ row) e' := by
  have hsigned : ∀ {row : Row} {e : Expr}, Derives .signed row e →
      ∃ e', Derives .signed (List.replicate k Item.minus ++ row) e' := by
    intro row e h
    cases h with
    | signed j h =>
      rw [← List.append_assoc, ← List.replicate_add]
      exact ⟨_, .signed (k + j) h⟩
  cases h with
  | alone h =>
    obtain ⟨e', he⟩ := hsigned h
    exact ⟨e', .alone he⟩
  | juxtaposed h hn starts ends =>
    obtain ⟨e', he⟩ := hsigned h
    rw [← List.append_assoc]
    exact ⟨_, .juxtaposed he hn starts (ends.congr (openLiteral_minuses_append k _).symm)⟩

/-- Where a unit is awaited, any factor makes an expression of what there is. -/
theorem Awaits.exists_derives {before used rest : Row} {e : Expr} (h : Awaits before (used ++ rest))
    (hu : Derives .factor used e) : ∃ e', Derives .sum (before ++ used) e' := by
  have hne := hu.ne_nil
  generalize hr : used ++ rest = r at h
  cases h with
  | start k =>
    obtain ⟨e', he⟩ := hu.minuses_append k
    exact ⟨e', .lone (.single he)⟩
  | operator op k hrow =>
    obtain ⟨e', he⟩ := hu.minuses_append k
    rw [List.append_assoc, List.cons_append]
    cases additive : op.isAdditive with
    | true => exact ⟨_, .added additive hrow (.single he)⟩
    | false => exact Level.Accepts.multiplied additive he hrow (Ends.of_operator _ _ _)
  | juxtaposed hrow starts ends =>
    rw [← hr] at starts ends
    exact Level.Accepts.juxtaposed hu ((startsFactor_append_iff hne rest).mp starts) hrow
      ((ends_append_iff hne rest).mp ends)

/-- Minus signs may come where a unit is awaited, except directly behind a factor. -/
theorem Awaits.minuses {before rest : Row} {k : Nat}
    (h : Awaits before (List.replicate k Item.minus ++ rest)) :
    Awaits (before ++ List.replicate k Item.minus) rest := by
  generalize hr : List.replicate k Item.minus ++ rest = r at h
  cases h with
  | start j =>
    rw [← List.replicate_add]
    exact .start _ _
  | operator op j hrow =>
    rw [List.append_assoc, List.cons_append, ← List.replicate_add]
    exact .operator op _ hrow _
  | juxtaposed hrow starts ends =>
    cases k with
    | zero =>
      rw [List.replicate_zero, List.nil_append] at hr
      rw [List.replicate_zero, List.append_nil, hr]
      exact .juxtaposed hrow starts ends
    | succ k =>
      rw [← hr] at starts
      cases starts

/-- No literal is open where a unit is awaited. -/
theorem Awaits.ends {before rest : Row} (h : Awaits before rest) : Ends before rest := by
  cases h with
  | start k =>
    have hopen := openLiteral_minuses_append k []
    rw [List.append_nil] at hopen
    exact .of_openLiteral_eq_none hopen rest
  | operator op k hrow =>
    have hopen := openLiteral_minuses_append k []
    rw [List.append_nil] at hopen
    exact .of_openLiteral_eq_none ((openLiteral_append_operator _ _ op).trans hopen) rest
  | juxtaposed hrow starts ends => exact ends

/-! ## What reading promises -/

/-- The outcome of a row is what the grammar says. -/
def Understood (row : Row) : Prop :=
  Meets (ofRow row) (fun e => Derives .sum row e) (fun f => ∃ k, f = .upgrade k ∧ Fails row k)

/-- The rows inside the items of a row are understood. -/
def InnerUnderstood (row : Row) : Prop := ∀ item ∈ row, ∀ inner ∈ item.slots, Understood inner

/-- What is understood in a row is understood in what is left of it. -/
theorem InnerUnderstood.right (row : Row) {rest : Row} (h : InnerUnderstood (row ++ rest)) :
    InnerUnderstood rest := fun item hi => h item (List.mem_append_right row hi)

theorem InnerUnderstood.head {item : Item} {rest inner : Row} (h : InnerUnderstood (item :: rest))
    (hi : inner ∈ item.slots) : Understood inner := h item (by simp) inner hi

/-- Reading a row: something of it is read as `P` says, or the row fails behind every row
that `A` admits. -/
def Reads (o : Outcome (Expr × List Part)) (row : Row) (P : Row → Row → Expr → Prop)
    (A : Row → Prop) : Prop :=
  Meets o (fun r => ∃ used rest, row = used ++ rest ∧ r.2 = partsOf rest ∧ P used rest r.1)
    (fun f => ∃ k, f = .upgrade k ∧ ∀ before, A before → Fails (before ++ row) k)

/-- What reading an expression of a level promises: it goes as far as the level does. -/
def Level.Understands (l : Level) (row : Row) : Prop :=
  Reads (l.take (partsOf row)) row
    (fun used rest e => Derives l used e ∧ Ends used rest ∧ l.Done rest)
    (fun before => Awaits before row)

/-! ## Units -/

/-- The first of the rows inside an item that is no expression is why reading fails there. -/
def FailsInside (slots : List Row) (f : Fault) : Prop :=
  ∃ k before inner after, f = .upgrade k ∧ slots = before ++ inner :: after ∧
    (∀ r ∈ before, ∃ e, Derives .sum r e) ∧ Fails inner k

/-- One of the rows inside an item, when those before it are expressions. -/
theorem Understood.inside {inner : Row} (h : Understood inner) {slots before after : List Row}
    (hs : slots = before ++ inner :: after) (hb : ∀ r ∈ before, ∃ e, Derives .sum r e) :
    Meets (ofParts (partsOf inner)) (fun e => Derives .sum inner e) (FailsInside slots) := by
  refine h.mono (fun _ he => he) ?_
  rintro _ ⟨k, rfl, hk⟩
  exact ⟨k, before, inner, after, rfl, hs, hb, hk⟩

/-- The first row inside an item. -/
theorem Understood.first {inner : Row} (h : Understood inner) (after : List Row) :
    Meets (ofParts (partsOf inner)) (fun e => Derives .sum inner e)
      (FailsInside (inner :: after)) :=
  h.inside (List.nil_append _).symm (by simp)

/-- Arguments are understood one by one; the first one that is no expression is why all fail. -/
theorem ofRows_meets {args : List Row} (h : ∀ row ∈ args, Understood row) :
    Meets (ofRows args)
      (fun es => args.length = es.length ∧ ∀ p ∈ args.zip es, Derives .sum p.1 p.2)
      (FailsInside args) := by
  induction args with
  | nil => exact ⟨rfl, by simp⟩
  | cons row args ih =>
    rw [ofRows]
    refine ((h row (by simp)).first args).bind fun e he => ?_
    refine ((ih fun r hr => h r (by simp [hr])).mono (fun _ hes => hes) ?_).bind fun es hes => ?_
    · rintro _ ⟨k, before, inner, after, rfl, rfl, hb, hk⟩
      refine ⟨k, row :: before, inner, after, rfl, rfl, ?_, hk⟩
      intro r hr
      rcases List.mem_cons.mp hr with rfl | hr
      · exact ⟨e, he⟩
      · exact hb r hr
    · refine ⟨by simp [hes.1], ?_⟩
      rintro p hp
      rw [List.zip_cons_cons, List.mem_cons] at hp
      rcases hp with rfl | hp
      · exact he
      · exact hes.2 p hp

/-- What reading a unit promises. -/
abbrev ReadsUnit (row : Row) : Prop :=
  Reads (takeUnit (partsOf row)) row (fun used rest e => Derives .unit used e ∧ Ends used rest)
    (fun before => Awaits before row)

/-- A unit that is a single item. -/
theorem readsUnit_of_item {item : Item} {rest : Row} {o : Outcome Expr}
    (hread : takeUnit (partsOf (item :: rest)) = o >>= fun e => .ok (e, partsOf rest))
    (hopen : openLiteral [item] = none) (starts : item.startsFactor = true)
    (ho : Meets o (fun e => Derives .unit [item] e) (FailsInside item.slots)) :
    ReadsUnit (item :: rest) := by
  rw [ReadsUnit, hread]
  refine (ho.mono (fun _ he => he) ?_).bind fun e he => ?_
  · rintro _ ⟨k, before, inner, after, rfl, slots, hb, hk⟩
    exact ⟨k, rfl, fun _ hw => .inside hw starts slots hb hk⟩
  · exact ⟨[item], rest, rfl, rfl, he, .of_openLiteral_eq_none hopen rest⟩

/-- No unit begins with an operator other than a minus, so reading one fails. -/
theorem readsUnit_of_operator (op : BinaryOp) (h : op ≠ .subtract) (rest : Row) :
    ReadsUnit (.token op.token :: rest) := by
  have hread : takeUnit (partsOf (.token op.token :: rest)) =
      .error (.upgrade .expectedUnit) := by
    cases op <;> rfl
  rw [ReadsUnit, hread]
  exact ⟨_, rfl, fun _ hb => .noUnit hb (Or.inr ⟨op, rest, h, rfl⟩)⟩

/-- A literal is a unit as far as its digits go, if it is in range and has a digit and one point at
most. -/
theorem readsUnit_of_numeral {item : Item} (h : item.isNumeral = true) (rest : Row) :
    ReadsUnit (item :: rest) := by
  obtain ⟨n, tail, hrow, hends⟩ := exists_numeral h rest
  rw [ReadsUnit, hrow, takeUnit_numeral n hends]
  by_cases hr : n.InRange
  · rw [if_pos hr]
    exact ⟨n.row, tail, rfl, rfl, .literal n hr, hends⟩
  · rw [if_neg hr]
    exact ⟨.overflow, rfl, fun _ hb => .overflow hb hends hr⟩

/-- A row that begins with no minus begins with a unit, or fails. -/
theorem takeUnit_reads {row : Row} (h : InnerUnderstood row)
    (hm : ∀ tail, row ≠ Item.minus :: tail) : ReadsUnit row := by
  match row, h, hm with
  | [], _, _ => exact ⟨.expectedUnit, rfl, fun _ hb => .noUnit hb (Or.inl rfl)⟩
  | .token .subtract :: rest, _, hm => exact absurd rfl (hm rest)
  | .token .add :: rest, _, _ => exact readsUnit_of_operator .add (by decide) rest
  | .token .multiply :: rest, _, _ => exact readsUnit_of_operator .multiply (by decide) rest
  | .token .divide :: rest, _, _ => exact readsUnit_of_operator .divide (by decide) rest
  | .token .point :: rest, _, _ | .token (.digit _) :: rest, _, _ =>
    exact readsUnit_of_numeral rfl rest
  | .token (.var name) :: rest, _, _ =>
    exact ⟨[.var name], rest, rfl, rfl, .variable name, .of_openLiteral_eq_none rfl rest⟩
  | .power exponent :: rest, _, _ => exact ⟨_, rfl, fun _ hb => .noBase hb⟩
  | .sqrt inner :: rest, h, _ =>
    have hinner : Understood inner := h.head (by simp [Item.slots])
    exact readsUnit_of_item rfl rfl rfl
      ((hinner.first []).bind fun e he => .sqrt he)
  | .parentheses inner :: rest, h, _ =>
    have hinner : Understood inner := h.head (by simp [Item.slots])
    exact readsUnit_of_item rfl rfl rfl
      ((hinner.first []).bind fun e he => .parentheses he)
  | .fraction top bottom :: rest, h, _ =>
    have htop : Understood top := h.head (by simp [Item.slots])
    have hbottom : Understood bottom := h.head (by simp [Item.slots])
    refine readsUnit_of_item rfl rfl rfl ?_
    refine (htop.first [bottom]).bind fun a ha => ?_
    refine (hbottom.inside (List.singleton_append).symm ?_).bind fun b hb => .fraction ha hb
    rintro r hr
    rw [List.mem_singleton.mp hr]
    exact ⟨a, ha⟩
  | .call f args :: rest, h, _ =>
    have hargs : ∀ row ∈ args, Understood row := fun _ hr => h.head hr
    exact readsUnit_of_item rfl rfl rfl
      ((ofRows_meets hargs).bind fun es hes => .call f hes.1 hes.2)

/-! ## Powers and signs -/

/-- Powers are read as far as they follow each other. One without an expression in it makes the row
fail. -/
theorem takePowers_reads {row : Row} (h : InnerUnderstood row) (e : Expr) :
    Reads (takePowers e (partsOf row)) row
      (fun used rest e' => (∀ base, Derives .raised base e → Derives .raised (base ++ used) e') ∧
        (∀ base, Ends base row → Ends (base ++ used) rest) ∧ Level.signed.Free rest)
      (fun before => ∃ e', Derives .sum before e') := by
  induction row generalizing e with
  | nil => exact ⟨[], [], rfl, rfl, by simp, by simp, rfl⟩
  | cons item rest ih =>
    by_cases hp : item.isPower = true
    · obtain ⟨exponent, rfl⟩ : ∃ exponent, item = .power exponent := by
        cases item <;> first | exact ⟨_, rfl⟩ | cases hp
      have hexponent : Understood exponent := h.head (by simp [Item.slots])
      rw [partsOf_cons, partOf, takePowers]
      -- the exponent is read on its own; if it is refused, the row is refused inside it
      refine (hexponent.mono (fun _ hx => hx) ?_).bind fun x hx => ?_
      · rintro _ ⟨k, rfl, hk⟩
        refine ⟨k, rfl, ?_⟩
        rintro before ⟨e', hb⟩
        exact .inExponent hb hk
      refine (ih (h.right [.power exponent]) (.power e x)).mono ?_ ?_
      · rintro ⟨e', ps⟩ ⟨used, rest, rfl, hps, hused, hends, hfree⟩
        refine ⟨.power exponent :: used, rest, rfl, hps, ?_, ?_, hfree⟩
        · intro base hbase
          rw [List.append_cons]
          exact hused _ (.power hbase hx)
        · intro base _
          rw [List.append_cons]
          exact hends _ (.of_openLiteral_eq_none (openLiteral_append_power base [] exponent) _)
      · rintro _ ⟨k, rfl, hk⟩
        refine ⟨k, rfl, ?_⟩
        rintro before ⟨e', hb⟩
        rw [List.append_cons]
        exact hk _ (Level.Accepts.power hx hb (Ends.of_power _ _ _))
    · have hfree : Level.signed.Free (item :: rest) := by simpa [Level.Free, Level.joins] using hp
      rw [takePowers_of_free hfree]
      exact ⟨[], item :: rest, rfl, rfl, by simp, by simp, hfree⟩

/-- The minus signs at the start of a row. -/
theorem exists_minuses (row : Row) :
    ∃ k rest, row = List.replicate k Item.minus ++ rest ∧ ∀ tail, rest ≠ Item.minus :: tail := by
  induction row with
  | nil => exact ⟨0, [], rfl, by simp⟩
  | cons item row ih =>
    by_cases hm : item = Item.minus
    · obtain ⟨k, rest, rfl, hrest⟩ := ih
      exact ⟨k + 1, rest, by rw [hm, List.replicate_succ, List.cons_append], hrest⟩
    · exact ⟨0, item :: row, rfl, fun tail ht => hm (List.cons.inj ht).1⟩

/-- A signed unit is read with all its minuses, or the row fails behind them. -/
theorem takeSigned_reads {row : Row} (h : InnerUnderstood row) : Level.signed.Understands row := by
  obtain ⟨k, row, rfl, hm⟩ := exists_minuses row
  rw [Level.Understands, Level.take, takeSigned_minuses k hm, takeRaised, bind_assoc]
  refine ((takeUnit_reads (h.right _) hm).mono (fun _ hr => hr) ?_).bind ?_
  · rintro _ ⟨j, rfl, hj⟩
    refine ⟨j, rfl, fun before hb => ?_⟩
    rw [← List.append_assoc]
    exact hj _ hb.minuses
  rintro ⟨u, _⟩ ⟨used, rest, rfl, rfl, hu, hends⟩
  -- behind the unit its powers are read, and a fault in one of them is the fault of the row
  refine ((takePowers_reads ((h.right _).right _) u).mono (fun _ hr => hr) ?_).bind ?_
  · rintro _ ⟨j, rfl, hj⟩
    refine ⟨j, rfl, fun before hb => ?_⟩
    rw [← List.append_assoc, ← List.append_assoc]
    exact hj _ (hb.minuses.exists_derives (.alone (.signed 0 (.bare hu))))
  rintro ⟨e, _⟩ ⟨powers, rest, rfl, rfl, hpowers, hclosed, hfree⟩
  have hraised : Derives .raised (used ++ powers) e := hpowers used (.bare hu)
  have hused : Ends (List.replicate k Item.minus ++ (used ++ powers)) rest :=
    (hclosed used hends).congr (openLiteral_minuses_append k _).symm
  have hrow : ∀ tail, List.replicate k Item.minus ++ (used ++ (powers ++ tail)) =
      List.replicate k Item.minus ++ (used ++ powers) ++ tail := by simp
  -- whether the minuses are an odd number decides what becomes of them, not what is read
  have hsigned := Derives.signed k hraised
  dsimp only
  by_cases hk : k % 2 = 1
  · rw [if_pos hk, negated_eq hraised, ok_bind]
    rw [if_pos hk] at hsigned
    exact ⟨_, rest, hrow rest, rfl, hsigned, hused, hfree⟩
  · rw [if_neg hk]
    rw [if_neg hk] at hsigned
    exact ⟨_, rest, hrow rest, rfl, hsigned, hused, hfree⟩

/-! ## Factors, terms and sums -/

/-- A factor is read with all signed units that follow each other. -/
theorem takeFactor_reads {row : Row} (h : InnerUnderstood row) : Level.factor.Understands row := by
  induction hn : row.length using Nat.strong_induction_on generalizing row with
  | _ n ih =>
  rw [Level.Understands, Level.take, takeFactor_eq]
  refine (takeSigned_reads h).bind ?_
  rintro ⟨e, _⟩ ⟨used, rest, rfl, rfl, hu, hends, hfree⟩
  dsimp only
  -- another factor follows, and is read with less of the row, or the factors end
  by_cases hs : StartsFactor rest
  · have hlt : rest.length < n := by
      have := List.length_pos_iff.mpr hu.ne_nil
      rw [List.length_append] at hn
      omega
    rw [if_pos ((startsFactor_partsOf rest).mpr hs)]
    refine ((ih _ hlt (h.right _) rfl).mono (fun _ hr => hr) ?_).bind ?_
    · rintro _ ⟨k, rfl, hk⟩
      refine ⟨k, rfl, fun before hb => ?_⟩
      obtain ⟨e', hb'⟩ := hb.exists_derives (.alone hu)
      have hbefore : Ends (before ++ used) rest := by
        have hused : Ends before used := (ends_append_iff hu.ne_nil rest).mp hb.ends
        exact hends.congr (openLiteral_append_of_ends hused hu.ne_nil).symm
      rw [← List.append_assoc]
      exact hk _ (.juxtaposed hb' hs hbefore)
    · rintro ⟨f, _⟩ ⟨last, rest, rfl, rfl, hl, hlast, hfree⟩
      have hne : last ≠ [] := hl.ne_nil
      have hs' : StartsFactor last := (startsFactor_append_iff hne rest).mp hs
      have hends' : Ends used last := (ends_append_iff hne rest).mp hends
      refine ⟨used ++ last, rest, (List.append_assoc _ _ _).symm, rfl,
        .juxtaposed hu hl hs' hends', ?_, hfree⟩
      exact hlast.congr (openLiteral_append_of_ends hends' hne).symm
  · rw [if_neg fun h => hs ((startsFactor_partsOf rest).mp h)]
    exact ⟨used, rest, rfl, rfl, .alone hu, hends, hfree.factor_of_not_startsFactor hs⟩

/-- Operands are read one after another until no operator follows. Reading goes on behind
each of them with less of the row. -/
theorem Level.Joined.resume_reads {part whole : Level} {additive : Bool}
    (j : Level.Joined part whole additive)
    (hpart : ∀ {row : Row}, InnerUnderstood row → part.Understands row)
    (hsum : ∀ {next : Row}, whole.Accepts next → Level.sum.Accepts next)
    {row : Row} (h : InnerUnderstood row) (hr : part.Done row) (e : Expr) :
    Reads (whole.resume e (partsOf row)) row
      (fun used rest e' => (∀ base, Derives whole base e → Derives whole (base ++ used) e') ∧
        (∀ base, Ends base row → Ends (base ++ used) rest) ∧ whole.Done rest)
      (fun before => ∃ e', Derives .sum before e') := by
  induction hn : row.length using Nat.strong_induction_on generalizing row e with
  | _ n ih =>
  -- no operator follows, or there is one and an operand behind it
  obtain hdone | ⟨op, rest, hop, rfl⟩ := j.done_or_operator hr
  · rw [hdone.resume_eq]
    exact ⟨[], row, rfl, rfl, by simp, by simp, hdone⟩
  rw [partsOf_cons, partOf, j.resume_operator hop]
  refine ((hpart (h.right [.token op.token])).mono (fun _ hr => hr) ?_).bind ?_
  · rintro _ ⟨k, rfl, hk⟩
    refine ⟨k, rfl, ?_⟩
    rintro before ⟨e', hb⟩
    rw [List.append_cons]
    exact hk _ (.operator op 0 hb _)
  rintro ⟨f, _⟩ ⟨used, rest, rfl, rfl, hu, hends, hdone⟩
  have hlt : rest.length < n := by
    rw [List.length_cons, List.length_append] at hn
    omega
  have hrest : InnerUnderstood rest := h.right (.token op.token :: used)
  have hassoc : ∀ before tail : Row, before ++ .token op.token :: (used ++ tail) =
      before ++ .token op.token :: used ++ tail := by simp
  -- less of the row is left behind the operand, so that the induction takes over there
  refine (ih _ hlt hrest hdone (.binary op e f) rfl).mono ?_ ?_
  · rintro ⟨e', ps⟩ ⟨more, rest, rfl, hps, hmore, hclosed, hdone⟩
    refine ⟨.token op.token :: (used ++ more), rest, by simp, hps, ?_, ?_, hdone⟩
    · intro base hbase
      rw [hassoc]
      exact hmore _ (j.join hop hbase hu)
    · intro base _
      rw [hassoc]
      exact hclosed _ (hends.congr (openLiteral_append_operator _ _ op).symm)
  · rintro _ ⟨k, rfl, hk⟩
    refine ⟨k, rfl, ?_⟩
    rintro before ⟨e', hb⟩
    rw [hassoc]
    exact hk _ (hsum (j.accepts_operand hop hu) hb (Ends.of_operator _ _ _))

/-- A term is read with its multiplications and divisions. -/
theorem takeTerm_reads {row : Row} (h : InnerUnderstood row) : Level.term.Understands row := by
  rw [Level.Understands, Level.take, takeTerm]
  refine (takeFactor_reads h).bind ?_
  rintro ⟨e, _⟩ ⟨used, rest, rfl, rfl, hu, hends, hdone⟩
  refine (Level.term_joined.resume_reads takeFactor_reads Level.sum_joined.accepts (h.right _)
    hdone e).mono ?_ ?_
  · rintro ⟨e', ps⟩ ⟨more, rest, rfl, hps, hmore, hclosed, hdone⟩
    exact ⟨used ++ more, rest, (List.append_assoc _ _ _).symm, hps, hmore used (.single hu),
      hclosed used hends, hdone⟩
  · rintro _ ⟨k, rfl, hk⟩
    refine ⟨k, rfl, fun before hb => ?_⟩
    rw [← List.append_assoc]
    exact hk _ (hb.exists_derives hu)

/-! ## Rows -/

/-- A row is understood when the rows inside its items are. -/
theorem understood_of_inner {row : Row} (h : InnerUnderstood row) : Understood row := by
  rw [Understood, ofRow, ofParts]
  refine ((takeTerm_reads h).mono (fun _ hr => hr) ?_).bind ?_
  · rintro _ ⟨k, rfl, hk⟩
    exact ⟨k, rfl, hk [] (.start 0 row)⟩
  rintro ⟨e, _⟩ ⟨used, rest, rfl, rfl, hu, hends, hdone⟩
  refine ((Level.sum_joined.resume_reads takeTerm_reads id (h.right _) hdone e).mono
    (fun _ hr => hr) ?_).bind ?_
  · rintro _ ⟨k, rfl, hk⟩
    exact ⟨k, rfl, hk used ⟨e, .lone hu⟩⟩
  rintro ⟨e', _⟩ ⟨more, rest, rfl, rfl, hmore, hclosed, rfl | ⟨tail, rfl⟩⟩
  · rw [List.append_nil]
    exact hmore used (.lone hu)
  · rw [← List.append_assoc]
    exact ⟨_, rfl, .leftover (hmore used (.lone hu)) (hclosed used hends)⟩

/-- Every row is understood, by induction on what is inside of it. -/
theorem understood (row : Row) : Understood row := by
  induction row using Row.induction_inside with
  | inside row ih => exact understood_of_inner ih

/-! ## The grammar decides -/

/-- Up to the precision the other sign is exact. -/
theorem Number.opposite_exact {v : Decimal} (h : Decimal.digitCount v.digits ≤ precision)
    (a : Accuracy) :
    ∃ w : Decimal, (Number.decimal v a).opposite = .decimal w a ∧ w.exponent = v.exponent ∧
      w.signedDigits = -v.signedDigits := by
  refine ⟨v.negate precision, rfl, ?_⟩
  unfold Decimal.negate
  by_cases hz : v.digits = 0
  · simp [hz, Decimal.signedDigits]
  · rw [if_neg hz, Decimal.round_of_digitCount_le (by simpa [Decimal.flip] using h)]
    cases hv : v.negative <;> simp [Decimal.flip, Decimal.signedDigits, hv]

/-- **A row is read as an expression exactly when the grammar derives it**, and as the one that
the grammar derives; any other row is refused, for exactly the reasons for which the grammar
says that it fails. A minus sign before a literal gives the exact opposite as long as the
literal has no more digits than the precision. -/
theorem Expr.ofRow_eq_iff (row : Row) :
    (∀ e, ofRow row = .ok e ↔ Derives .sum row e) ∧
      (∀ f, ofRow row = .error f ↔ ∃ k, f = .upgrade k ∧ Fails row k) ∧
      (∀ (v : Decimal) (a : Accuracy), Decimal.digitCount v.digits ≤ precision →
        ∃ w : Decimal, (Number.decimal v a).opposite = .decimal w a ∧ w.exponent = v.exponent ∧
          w.signedDigits = -v.signedDigits) := by
  refine ⟨fun e => ⟨(understood row).of_ok, Derives.ofRow_eq⟩, fun f => ?_, ?_⟩
  · constructor
    · exact (understood row).of_error
    · rintro ⟨k, rfl, hk⟩
      exact hk.ofRow_eq
  · exact fun v a h => Number.opposite_exact h a

/-- The row of `-2x` with the exponent `2` is a product of `-2` and a power, a second point makes no
expression, and a literal of one digit has an exact opposite. -/
theorem Expr.ofRow_eq_iff_juxtaposed :
    ofRow [Item.minus, .digit 2, .var "x", .power [.digit 2]] =
        .ok (.binary .multiply (.number (.ratio (-2) 1))
          (.power (.var "x") (.number (.ratio 2 1)))) ∧
      ofRow [.token .point, .token .point] = .error (.upgrade .unexpectedTokensAtEnd) ∧
      Decimal.digitCount (⟨false, 5, -1⟩ : Decimal).digits ≤ precision ∧
      ∃ w : Decimal, (Number.decimal ⟨false, 5, -1⟩ .exact).opposite = .decimal w .exact ∧
        w.exponent = -1 ∧ w.signedDigits = -5 := by
  have two : Derives .raised [.digit 2] (.number (.ratio 2 1)) :=
    .bare (.literal ⟨[2], none, Or.inl (by simp)⟩ (by decide))
  have square : Derives .factor ([.var "x"] ++ [.power [.digit 2]])
      (.power (.var "x") (.number (.ratio 2 1))) :=
    .alone (.signed 0 (.power (.bare (.variable "x")) (.lone (.single (.alone (.signed 0 two))))))
  have product := Derives.lone (.single (.juxtaposed (.signed 1 two) square rfl rfl))
  have point := Derives.lone (.single (.alone (.signed 0
    (.bare (.literal ⟨[], some [], Or.inr (by simp)⟩ (by decide))))))
  have digits : Decimal.digitCount (⟨false, 5, -1⟩ : Decimal).digits ≤ precision := by
    rw [Decimal.digitCount, if_pos (by decide)]
    decide
  refine ⟨((ofRow_eq_iff _).1 _).mpr product, ((ofRow_eq_iff _).2.1 _).mpr ?_, digits,
    (ofRow_eq_iff []).2.2 _ _ digits⟩
  exact ⟨_, rfl, .leftover point rfl⟩

/-- The largest literal of twenty-nine digits. -/
def Numeral.largest : Numeral :=
  ⟨[7, 9, 2, 2, 8, 1, 6, 2, 5, 1, 4, 2, 6, 4, 3, 3, 7, 5, 9, 3, 5, 4, 3, 9, 5, 0, 3, 3, 5], none,
    Or.inl (by simp)⟩

/-- Behind a minus sign the largest literal is rounded to twenty-eight digits, which is neither
its opposite nor in range. -/
theorem Expr.ofRow_minus_largest :
    Numeral.largest.mantissa = maxMagnitude ∧
      ofRow Numeral.largest.row = .ok (.number (.decimal ⟨false, maxMagnitude, 0⟩ .exact)) ∧
      ofRow (Item.minus :: Numeral.largest.row) =
        .ok (.number (.decimal ⟨true, 7922816251426433759354395034, 1⟩ .exact)) ∧
      (⟨true, 7922816251426433759354395034, 1⟩ : Decimal).units 0 < -(maxMagnitude : Int) := by
  have hrange : Numeral.largest.InRange := by decide
  have hunit := Derives.bare (.literal Numeral.largest hrange)
  have hplain := (Derives.lone (.single (.alone (.signed 0 hunit)))).ofRow_eq
  have hminus := (Derives.lone (.single (.alone (.signed 1 hunit)))).ofRow_eq
  have hopposite : Numeral.largest.number.opposite =
      .decimal ⟨true, 7922816251426433759354395034, 1⟩ .exact := by
    decide +kernel
  refine ⟨by decide, hplain, hminus.trans ?_, by decide⟩
  rw [if_pos rfl, Expr.opposite, hopposite]

end Mathpad
