import Mathlib.Data.List.Basic
import Mathpad.Item.Brackets

/-!
# Texts with matching parentheses

Everything that scans for parentheses and commas passes over a text whose parentheses match
as if it were not there: none of them is missed, none is taken for the partner of one outside,
and commas inside of them separate nothing.

Which texts these are can be told by counting: the number of open parentheses never has to
go below zero, and is zero at the end. What the counter sees does not change when characters
are taken away that are no parentheses, which the shape of a text does not show as easily.
-/
set_option autoImplicit false

namespace Mathpad.Brackets

/-- The parentheses of a text match. The flag says whether there may be commas outside of them. -/
inductive Nested : Bool → List Char → Prop
  | nil {commas : Bool} : Nested commas []
  | char {commas : Bool} {c : Char} {cs : List Char} (open_ne : c ≠ '(') (close_ne : c ≠ ')')
      (comma_ne : c ≠ ',') (h : Nested commas cs) : Nested commas (c :: cs)
  | comma {cs : List Char} (h : Nested true cs) : Nested true (',' :: cs)
  | group {commas : Bool} {inner cs : List Char} (hi : Nested true inner) (h : Nested commas cs) :
      Nested commas ('(' :: (inner ++ ')' :: cs))

namespace Nested

variable {commas : Bool} {cs next : List Char}

theorem append (h : Nested commas cs) (hn : Nested commas next) : Nested commas (cs ++ next) := by
  induction h with
  | nil => exact hn
  | char h1 h2 h3 _ ih => exact .char h1 h2 h3 (ih hn)
  | comma _ ih => exact .comma (ih hn)
  | group hi _ _ ih =>
    rw [List.cons_append, List.append_assoc, List.cons_append]
    exact .group hi (ih hn)

/-- A text may be taken for one in which commas are permitted. -/
theorem withCommas (h : Nested commas cs) : Nested true cs := by
  induction h with
  | nil => exact .nil
  | char h1 h2 h3 _ ih => exact .char h1 h2 h3 ih
  | comma _ ih => exact .comma ih
  | group hi _ _ ih => exact .group hi ih

/-- A text without any parentheses and commas. -/
theorem of_forall (h : ∀ c ∈ cs, c ≠ '(' ∧ c ≠ ')' ∧ c ≠ ',') : Nested commas cs := by
  induction cs with
  | nil => exact .nil
  | cons c cs ih =>
    obtain ⟨h1, h2, h3⟩ := h c (by simp)
    exact .char h1 h2 h3 (ih fun d hd => h d (by simp [hd]))

/-! ## Looking for parentheses without a partner -/

/-- A character that is no parenthesis is passed over in the search for an unmatched one. -/
theorem unmatchedFrom_char {c : Char} (h1 : c ≠ '(') (h2 : c ≠ ')') (i : Nat) (opened : List Nat)
    (rest : List Char) : unmatchedFrom i opened (c :: rest) = unmatchedFrom (i + 1) opened rest := by
  cases opened <;> simp only [unmatchedFrom, h1, h2, if_false]

/-- A parenthesis that opens is remembered until it is closed. -/
theorem unmatchedFrom_open (i : Nat) (opened : List Nat) (rest : List Char) :
    unmatchedFrom i opened ('(' :: rest) = unmatchedFrom (i + 1) (i :: opened) rest := by
  cases opened <;> rfl

theorem unmatchedFrom_append (h : Nested commas cs) (i : Nat) (opened : List Nat)
    (rest : List Char) :
    unmatchedFrom i opened (cs ++ rest) = unmatchedFrom (i + cs.length) opened rest := by
  induction h generalizing i opened rest with
  | nil => rfl
  | char h1 h2 _ _ ih =>
    rw [List.cons_append, unmatchedFrom_char h1 h2, ih, List.length_cons]
    congr 1
    omega
  | comma _ ih =>
    rw [List.cons_append, unmatchedFrom_char (by decide) (by decide), ih, List.length_cons]
    congr 1
    omega
  | @group _ inner cs _ _ ihi ih =>
    -- the place of the opening one waits while the inside is passed over
    rw [List.cons_append, unmatchedFrom_open, List.append_assoc, ihi, List.cons_append]
    change unmatchedFrom _ opened (cs ++ rest) = _
    rw [ih]
    congr 1
    simp only [List.length_cons, List.length_append]
    omega

theorem unmatched?_eq_none (h : Nested commas cs) : unmatched? cs = none := by
  have hpass := h.unmatchedFrom_append 0 [] []
  rw [List.append_nil] at hpass
  rw [unmatched?, hpass]
  rfl

/-! ## Looking for the closing parenthesis -/

theorem keep_eq_map (c : Char) (o : Option (List Char × List Char)) :
    untilClosing.keep c o = o.map fun s => (c :: s.1, s.2) := by
  cases o <;> rfl

/-- The search for the closing parenthesis goes on behind any character that is not that one. -/
theorem untilClosing_cons {c : Char} {depth : Nat} (h : c = ')' → depth ≠ 0) (cs : List Char) :
    untilClosing depth (c :: cs) = (untilClosing
      (if c = '(' then depth + 1 else if c = ')' then depth - 1 else depth) cs).map
        fun s => (c :: s.1, s.2) := by
  cases depth with
  | zero => rw [untilClosing, if_neg fun hc => h hc rfl, keep_eq_map, if_neg fun hc => h hc rfl]
  | succ d => rw [untilClosing, keep_eq_map, Nat.add_sub_cancel]

/-- The search for the closing parenthesis passes over a text with matching ones. -/
theorem untilClosing_append (h : Nested commas cs) (depth : Nat) (rest : List Char) :
    untilClosing depth (cs ++ rest) =
      (untilClosing depth rest).map fun s => (cs ++ s.1, s.2) := by
  induction h generalizing depth rest with
  | nil => simp
  | char h1 h2 _ _ ih =>
    rw [List.cons_append, untilClosing_cons fun hc => absurd hc h2, if_neg h1, if_neg h2, ih,
      Option.map_map]
    rfl
  | comma _ ih =>
    rw [List.cons_append, untilClosing_cons (by simp), if_neg (by decide), if_neg (by decide), ih,
      Option.map_map]
    rfl
  | @group _ inner cs _ _ ihi ih =>
    rw [List.cons_append, List.append_assoc, List.cons_append, untilClosing_cons (by simp),
      if_pos rfl, ihi, untilClosing_cons (by simp), if_neg (by decide), if_pos rfl,
      Nat.add_sub_cancel, ih, Option.map_map, Option.map_map, Option.map_map]
    simp [Function.comp_def]

/-- The text up to the parenthesis that closes it, which is the one behind it. -/
theorem untilClosing_close (h : Nested commas cs) (rest : List Char) :
    untilClosing 0 (cs ++ ')' :: rest) = some (cs, rest) := by
  rw [h.untilClosing_append, untilClosing, if_pos rfl]
  simp

/-- Nothing behind the closing parenthesis counts. -/
theorem untilClosing_append_of_some {depth : Nat} {cs inner rest : List Char}
    (h : untilClosing depth cs = some (inner, rest)) (next : List Char) :
    untilClosing depth (cs ++ next) = some (inner, rest ++ next) := by
  induction cs generalizing depth inner with
  | nil => cases h
  | cons c cs ih =>
    by_cases hc : c = ')' ∧ depth = 0
    · obtain ⟨rfl, rfl⟩ := hc
      rw [untilClosing, if_pos rfl] at h
      cases h
      rw [List.cons_append, untilClosing, if_pos rfl]
    · have hstep : c = ')' → depth ≠ 0 := fun hclose hzero => hc ⟨hclose, hzero⟩
      rw [untilClosing_cons hstep] at h
      obtain ⟨⟨i, r⟩, hs, heq⟩ := Option.map_eq_some_iff.mp h
      cases heq
      rw [List.cons_append, untilClosing_cons hstep, ih hs]
      rfl

/-- A text without the closing parenthesis is passed over, with some parentheses left open. -/
theorem untilClosing_append_of_none {depth : Nat} {cs : List Char}
    (h : untilClosing depth cs = none) : ∃ k, ∀ next, untilClosing depth (cs ++ next) =
      (untilClosing k next).map fun s => (cs ++ s.1, s.2) := by
  induction cs generalizing depth with
  | nil => exact ⟨depth, fun next => by simp⟩
  | cons c cs ih =>
    by_cases hc : c = ')' ∧ depth = 0
    · obtain ⟨rfl, rfl⟩ := hc
      rw [untilClosing, if_pos rfl] at h
      cases h
    · have hstep : c = ')' → depth ≠ 0 := fun hclose hzero => hc ⟨hclose, hzero⟩
      rw [untilClosing_cons hstep] at h
      obtain ⟨k, hk⟩ := ih (Option.map_eq_none_iff.mp h)
      refine ⟨k, fun next => ?_⟩
      rw [List.cons_append, untilClosing_cons hstep, hk, Option.map_map]
      rfl

/-! ## Cutting at commas -/

theorem cutAtCommas_ne_nil (depth : Nat) (cs : List Char) : cutAtCommas depth cs ≠ [] := by
  cases cs with
  | nil => simp [cutAtCommas]
  | cons c cs =>
    rw [cutAtCommas]
    split
    · simp
    · split <;> simp

/-- A character that is no comma outside of parentheses belongs to the piece that follows. -/
theorem cutAtCommas_cons (depth : Nat) {c : Char} (cs : List Char) (h : c = ',' → depth ≠ 0) :
    cutAtCommas depth (c :: cs) = (cutAtCommas
      (if c = '(' then depth + 1 else if c = ')' then depth - 1 else depth) cs).modifyHead
        (c :: ·) := by
  rw [cutAtCommas, if_neg fun hc => h hc.1 hc.2]
  split
  · next hnil => exact absurd hnil (cutAtCommas_ne_nil _ _)
  · next hcons => rw [hcons, List.modifyHead_cons]

/-- A text without commas outside of its parentheses goes to one piece, and one with such commas
does so inside of others. -/
theorem cutAtCommas_append (h : Nested commas cs) (depth : Nat)
    (hd : commas = true → depth ≠ 0) (rest : List Char) :
    cutAtCommas depth (cs ++ rest) = (cutAtCommas depth rest).modifyHead (cs ++ ·) := by
  induction h generalizing depth rest with
  | nil =>
    -- there is a first piece for the text to go to
    obtain ⟨piece, pieces, hcut⟩ := List.exists_cons_of_ne_nil (cutAtCommas_ne_nil depth rest)
    rw [List.nil_append, hcut]
    rfl
  | char h1 h2 h3 _ ih =>
    rw [List.cons_append, cutAtCommas_cons _ _ fun hc => absurd hc h3, if_neg h1, if_neg h2,
      ih depth hd, List.modifyHead_modifyHead]
    rfl
  | comma _ ih =>
    rw [List.cons_append, cutAtCommas_cons _ _ fun _ => hd rfl, if_neg (by decide),
      if_neg (by decide), ih depth hd, List.modifyHead_modifyHead]
    rfl
  | @group _ inner cs _ _ ihi ih =>
    rw [List.cons_append, List.append_assoc, List.cons_append,
      cutAtCommas_cons _ _ (by simp), if_pos rfl, ihi _ (by simp),
      cutAtCommas_cons _ _ (by simp), if_neg (by decide), if_pos rfl, Nat.add_sub_cancel,
      ih depth hd, List.modifyHead_modifyHead, List.modifyHead_modifyHead,
      List.modifyHead_modifyHead]
    congr 1
    funext piece
    simp

/-- Texts that are joined by commas are what they are cut into. -/
theorem cutAtCommas_intercalate {texts : List (List Char)} (h : ∀ t ∈ texts, Nested false t)
    (hne : texts ≠ []) : cutAtCommas 0 ([','].intercalate texts) = texts := by
  induction texts with
  | nil => exact absurd rfl hne
  | cons t ts ih =>
    have ht : ∀ rest, cutAtCommas 0 (t ++ rest) = (cutAtCommas 0 rest).modifyHead (t ++ ·) :=
      (h t (by simp)).cutAtCommas_append 0 (by simp)
    match ts with
    | [] =>
      have hlast := ht []
      rw [List.append_nil] at hlast
      simpa [cutAtCommas] using hlast
    | u :: us =>
      rw [List.intercalate_cons_cons, List.append_assoc, ht, List.singleton_append, cutAtCommas,
        if_pos ⟨rfl, rfl⟩, ih (fun v hv => h v (by simp [hv])) (by simp)]
      simp

/-- What comes before a piece that goes on, the start of that piece, and how deep it is then. -/
theorem exists_cutAtCommas_append (depth : Nat) (cs : List Char) :
    ∃ before last k, last.length ≤ cs.length ∧ ∀ next, cutAtCommas depth (cs ++ next) =
      before ++ (cutAtCommas k next).modifyHead (last ++ ·) := by
  induction cs generalizing depth with
  | nil =>
    refine ⟨[], [], depth, Nat.le_refl _, fun next => ?_⟩
    obtain ⟨piece, pieces, hcut⟩ := List.exists_cons_of_ne_nil (cutAtCommas_ne_nil depth next)
    rw [List.nil_append, List.nil_append, hcut]
    rfl
  | cons c cs ih =>
    by_cases hc : c = ',' ∧ depth = 0
    · obtain ⟨before, last, k, hlast, hcut⟩ := ih 0
      refine ⟨[] :: before, last, k, Nat.le_succ_of_le hlast, fun next => ?_⟩
      rw [List.cons_append, cutAtCommas, if_pos hc, hcut]
      rfl
    · obtain ⟨before, last, k, hlast, hcut⟩ :=
        ih (if c = '(' then depth + 1 else if c = ')' then depth - 1 else depth)
      have hstep : ∀ next, cutAtCommas depth (c :: cs ++ next) =
          (before ++ (cutAtCommas k next).modifyHead (last ++ ·)).modifyHead (c :: ·) := by
        intro next
        rw [List.cons_append, cutAtCommas_cons _ _ fun hcomma hzero => hc ⟨hcomma, hzero⟩, hcut]
      -- the character belongs to the first of the pieces
      cases before with
      | nil =>
        refine ⟨[], c :: last, k, Nat.succ_le_succ hlast, fun next => ?_⟩
        rw [hstep, List.nil_append, List.modifyHead_modifyHead]
        rfl
      | cons piece pieces =>
        exact ⟨(c :: piece) :: pieces, last, k, Nat.le_succ_of_le hlast, hstep⟩

end Nested

/-- Joining texts by commas leaves their parentheses matched. -/
theorem nested_intercalate {texts : List (List Char)} (h : ∀ t ∈ texts, Nested true t) :
    Nested true ([','].intercalate texts) := by
  induction texts with
  | nil => exact .nil
  | cons t ts ih =>
    have hts := ih fun u hu => h u (by simp [hu])
    match ts, hts with
    | [], _ => simpa using h t (by simp)
    | u :: us, hts =>
      rw [List.intercalate_cons_cons, List.append_assoc]
      exact (h t (by simp)).append (.comma hts)

/-! ## Counting open parentheses -/

/-- The number of parentheses that are open behind a text when `n` are before it; there is none if
one is closed that was not open. -/
def openBehind : Nat → List Char → Option Nat
  | n, [] => some n
  | n, c :: cs =>
    if c = '(' then openBehind (n + 1) cs
    else if c = ')' then (if n = 0 then none else openBehind (n - 1) cs)
    else openBehind n cs

theorem openBehind_open (n : Nat) (cs : List Char) :
    openBehind n ('(' :: cs) = openBehind (n + 1) cs := by
  rw [openBehind, if_pos rfl]

/-- A character that is no parenthesis leaves the number of open ones alone. -/
theorem openBehind_char {c : Char} (h1 : c ≠ '(') (h2 : c ≠ ')') (n : Nat) (cs : List Char) :
    openBehind n (c :: cs) = openBehind n cs := by
  rw [openBehind, if_neg h1, if_neg h2]

/-- The parentheses that are open behind one text are open before the next. -/
theorem openBehind_append (n : Nat) (cs next : List Char) :
    openBehind n (cs ++ next) = (openBehind n cs).bind fun k => openBehind k next := by
  induction cs generalizing n with
  | nil => rfl
  | cons c cs ih =>
    rw [List.cons_append, openBehind, openBehind]
    by_cases hopen : c = '('
    · rw [if_pos hopen, if_pos hopen, ih]
    by_cases hclose : c = ')'
    · rw [if_neg hopen, if_neg hopen, if_pos hclose, if_pos hclose]
      by_cases hn : n = 0
      · rw [if_pos hn, if_pos hn, Option.bind_none]
      · rw [if_neg hn, if_neg hn, ih]
    · rw [if_neg hopen, if_neg hopen, if_neg hclose, if_neg hclose, ih]

/-- Characters that are no parentheses do not count. -/
theorem openBehind_of_forall {cs : List Char} (h : ∀ c ∈ cs, c ≠ '(' ∧ c ≠ ')') (n : Nat) :
    openBehind n cs = some n := by
  induction cs with
  | nil => rfl
  | cons c cs ih =>
    obtain ⟨hopen, hclose⟩ := h c (by simp)
    rw [openBehind_char hopen hclose, ih fun d hd => h d (by simp [hd])]

/-- A text with matching parentheses leaves as many open as there were before it. -/
theorem Nested.openBehind_eq {commas : Bool} {cs : List Char} (h : Nested commas cs) (n : Nat) :
    openBehind n cs = some n := by
  induction h generalizing n with
  | nil => rfl
  | char h1 h2 _ _ ih => rw [openBehind_char h1 h2, ih]
  | comma _ ih => rw [openBehind_char (by decide) (by decide), ih]
  | group _ _ ihi ih =>
    rw [openBehind_open, openBehind_append, ihi]
    exact ih n

/-- Texts with matching parentheses, each but the last with a closing one behind it. -/
def Closes : Nat → List Char → Prop
  | 0, cs => Nested true cs
  | n + 1, cs => ∃ inner rest, cs = inner ++ ')' :: rest ∧ Nested true inner ∧ Closes n rest

/-- A text that closes what is open, and no more, consists of such texts. -/
theorem closes_of_openBehind {n : Nat} {cs : List Char} (h : openBehind n cs = some 0) :
    Closes n cs := by
  induction cs generalizing n with
  | nil =>
    obtain rfl : n = 0 := Option.some.inj h
    exact Nested.nil
  | cons c cs ih =>
    rw [openBehind] at h
    by_cases hopen : c = '('
    · -- the first closing parenthesis is the partner of this one
      rw [if_pos hopen] at h
      subst hopen
      obtain ⟨inner, rest, rfl, hinner, hrest⟩ := ih h
      cases n with
      | zero => exact .group hinner hrest
      | succ k =>
        obtain ⟨inner', rest', rfl, hinner', hrest'⟩ := hrest
        exact ⟨'(' :: (inner ++ ')' :: inner'), rest', by simp, .group hinner hinner', hrest'⟩
    rw [if_neg hopen] at h
    by_cases hclose : c = ')'
    · rw [if_pos hclose] at h
      subst hclose
      cases n with
      | zero => cases h
      | succ k => exact ⟨[], cs, rfl, .nil, ih h⟩
    · rw [if_neg hclose] at h
      have hcons : ∀ {ds : List Char}, Nested true ds → Nested true (c :: ds) := by
        intro ds hds
        by_cases hcomma : c = ','
        · subst hcomma
          exact .comma hds
        · exact .char hopen hclose hcomma hds
      cases n with
      | zero => exact hcons (ih h)
      | succ k =>
        obtain ⟨inner, rest, rfl, hinner, hrest⟩ := ih h
        exact ⟨c :: inner, rest, rfl, hcons hinner, hrest⟩

/-- The parentheses of a text match just if none is open at its end and none is missing. -/
theorem nested_iff_openBehind {cs : List Char} : Nested true cs ↔ openBehind 0 cs = some 0 :=
  ⟨fun h => h.openBehind_eq 0, fun h => closes_of_openBehind h⟩

/-- Where the search for an unmatched parenthesis finds none, those that were open are closed in the
end. -/
theorem openBehind_of_unmatchedFrom {i : Nat} {opened : List Nat} {cs : List Char}
    (h : unmatchedFrom i opened cs = none) : openBehind opened.length cs = some 0 := by
  induction cs generalizing i opened with
  | nil =>
    have hnil : opened.getLast? = none := h
    rw [List.getLast?_eq_none_iff.mp hnil]
    rfl
  | cons c cs ih =>
    rw [openBehind]
    by_cases hopen : c = '('
    · subst hopen
      rw [Nested.unmatchedFrom_open] at h
      rw [if_pos rfl]
      exact ih h
    by_cases hclose : c = ')'
    · subst hclose
      cases opened with
      | nil => cases h
      | cons j waiting => exact ih (i := i + 1) h
    · rw [Nested.unmatchedFrom_char hopen hclose] at h
      rw [if_neg hopen, if_neg hclose]
      exact ih h

/-- The search for a parenthesis without a partner finds one unless all of them match. -/
theorem unmatched?_eq_none_iff {cs : List Char} : unmatched? cs = none ↔ Nested true cs :=
  ⟨fun h => nested_iff_openBehind.mpr (openBehind_of_unmatchedFrom h),
    fun h => h.unmatched?_eq_none⟩

/-- The text up to the closing parenthesis closes what is opened in it. -/
theorem untilClosing_eq_some {depth : Nat} {cs inner rest : List Char}
    (h : untilClosing depth cs = some (inner, rest)) :
    cs = inner ++ ')' :: rest ∧ openBehind depth inner = some 0 := by
  induction cs generalizing depth inner with
  | nil => cases h
  | cons c cs ih =>
    by_cases hc : c = ')' ∧ depth = 0
    · obtain ⟨rfl, rfl⟩ := hc
      rw [untilClosing, if_pos rfl] at h
      cases h
      exact ⟨rfl, rfl⟩
    · have hstep : c = ')' → depth ≠ 0 := fun hclose hzero => hc ⟨hclose, hzero⟩
      rw [Nested.untilClosing_cons hstep] at h
      obtain ⟨⟨i, r⟩, hs, heq⟩ := Option.map_eq_some_iff.mp h
      cases heq
      obtain ⟨hcs, hopen⟩ := ih hs
      refine ⟨by rw [hcs, List.cons_append], ?_⟩
      rw [openBehind, ← hopen]
      split_ifs with h1 h2 h3
      · rfl
      · exact absurd h3 (hstep h2)
      · rfl
      · rfl

/-- What stands in front of the closing parenthesis has matching ones. -/
theorem nested_of_untilClosing {cs inner rest : List Char}
    (h : untilClosing 0 cs = some (inner, rest)) :
    cs = inner ++ ')' :: rest ∧ Nested true inner :=
  ⟨(untilClosing_eq_some h).1, nested_iff_openBehind.mpr (untilClosing_eq_some h).2⟩

/-! ## Parts of a text -/

/-- Each opening parenthesis of a text has its partner in the text. -/
theorem Nested.closed {commas : Bool} {before after : List Char}
    (h : Nested commas (before ++ '(' :: after)) :
    ∃ inner rest, after = inner ++ ')' :: rest ∧ Nested true inner := by
  have hopen := h.openBehind_eq 0
  rw [openBehind_append] at hopen
  obtain ⟨k, -, hafter⟩ := Option.bind_eq_some_iff.mp hopen
  rw [openBehind_open] at hafter
  obtain ⟨inner, rest, hrest, hinner, -⟩ := closes_of_openBehind hafter
  exact ⟨inner, rest, hrest, hinner⟩

/-- A text whose parentheses match is joined from pieces that have no commas outside of them. -/
theorem Nested.exists_pieces {commas : Bool} {cs : List Char} (h : Nested commas cs) :
    ∃ pieces ≠ [], (∀ t ∈ pieces, Nested false t) ∧ cs = [','].intercalate pieces := by
  -- what has no such comma goes to the front of the first piece
  have hfront : ∀ {front cs : List Char}, Nested false front →
      (∃ pieces ≠ [], (∀ t ∈ pieces, Nested false t) ∧ cs = [','].intercalate pieces) →
      ∃ pieces ≠ [], (∀ t ∈ pieces, Nested false t) ∧ front ++ cs = [','].intercalate pieces := by
    rintro front cs hfront ⟨pieces, hne, hpieces, rfl⟩
    obtain ⟨piece, pieces, rfl⟩ := List.exists_cons_of_ne_nil hne
    refine ⟨(front ++ piece) :: pieces, by simp, fun t ht => ?_, ?_⟩
    · rcases List.mem_cons.mp ht with rfl | ht
      · exact hfront.append (hpieces piece (by simp))
      · exact hpieces t (by simp [ht])
    · cases pieces with
      | nil => simp
      | cons u us => rw [List.intercalate_cons_cons, List.intercalate_cons_cons]; simp
  induction h with
  | nil => exact ⟨[[]], by simp, by simpa using Nested.nil, rfl⟩
  | char h1 h2 h3 _ ih => exact hfront (.char h1 h2 h3 .nil) ih
  | comma _ ih =>
    obtain ⟨pieces, hne, hpieces, rfl⟩ := ih
    obtain ⟨piece, pieces, rfl⟩ := List.exists_cons_of_ne_nil hne
    refine ⟨[] :: piece :: pieces, by simp, fun t ht => ?_, ?_⟩
    · rcases List.mem_cons.mp ht with rfl | ht
      · exact .nil
      · exact hpieces t ht
    · rw [List.intercalate_cons_cons]
      rfl
  | @group _ inner cs hi _ _ ih =>
    have hgroup := hfront (.group hi .nil) ih
    simpa using hgroup

/-- Cutting adds no characters. -/
theorem mem_of_mem_cutAtCommas {depth : Nat} {cs t : List Char} (ht : t ∈ cutAtCommas depth cs)
    {d : Char} (hd : d ∈ t) : d ∈ cs := by
  induction cs generalizing depth t with
  | nil =>
    rw [List.mem_singleton.mp ht] at hd
    exact hd
  | cons c cs ih =>
    by_cases hcomma : c = ',' ∧ depth = 0
    · rw [cutAtCommas, if_pos hcomma] at ht
      rcases List.mem_cons.mp ht with rfl | ht
      · cases hd
      · exact List.mem_cons_of_mem c (ih ht hd)
    · rw [Nested.cutAtCommas_cons depth cs fun hc hzero => hcomma ⟨hc, hzero⟩] at ht
      obtain ⟨piece, pieces, hcut⟩ := List.exists_cons_of_ne_nil (Nested.cutAtCommas_ne_nil
        (if c = '(' then depth + 1 else if c = ')' then depth - 1 else depth) cs)
      rw [hcut, List.modifyHead_cons] at ht
      rcases List.mem_cons.mp ht with rfl | ht
      · rcases List.mem_cons.mp hd with rfl | hd
        · exact List.mem_cons_self
        · exact List.mem_cons_of_mem c (ih (hcut ▸ List.mem_cons_self) hd)
      · exact List.mem_cons_of_mem c (ih (hcut ▸ List.mem_cons_of_mem piece ht) hd)

namespace Nested

variable {cs : List Char}

/-- What follows a first character that opens nothing. -/
theorem tail {commas : Bool} {c : Char} (h : Nested commas (c :: cs)) (hopen : c ≠ '(') :
    c ≠ ')' ∧ Nested commas cs := by
  cases h with
  | char _ h2 _ h => exact ⟨h2, h⟩
  | comma h => exact ⟨by decide, h⟩
  | group => exact absurd rfl hopen

/-- What a first opening parenthesis encloses, and what follows its partner. -/
theorem split {commas : Bool} (h : Nested commas ('(' :: cs)) :
    ∃ inner rest, cs = inner ++ ')' :: rest ∧ Nested true inner ∧ Nested commas rest := by
  cases h with
  | char hopen => exact absurd rfl hopen
  | group hi h => exact ⟨_, _, rfl, hi, h⟩

/-- Dropping characters from the front, but no parenthesis, leaves the parentheses matching. -/
theorem dropWhile {commas : Bool} {p : Char → Bool} (hp : p '(' = false)
    (h : Nested commas cs) : Nested commas (cs.dropWhile p) := by
  induction cs with
  | nil => exact h
  | cons c cs ih =>
    by_cases hc : p c = true
    · have hopen : c ≠ '(' := by
        rintro rfl
        rw [hp] at hc
        cases hc
      rw [List.dropWhile_cons_of_pos hc]
      exact ih (h.tail hopen).2
    · rw [List.dropWhile_cons_of_neg hc]
      exact h

/-- Characters that are no parentheses can be taken away at the end. -/
theorem of_append {next : List Char} (h : Nested true (cs ++ next))
    (hn : ∀ c ∈ next, c ≠ '(' ∧ c ≠ ')') : Nested true cs := by
  rw [nested_iff_openBehind, openBehind_append] at h
  obtain ⟨k, hk, hnext⟩ := Option.bind_eq_some_iff.mp h
  rw [openBehind_of_forall hn] at hnext
  rw [nested_iff_openBehind, hk, hnext]

/-- Characters that are no parentheses can be taken away on both sides. -/
theorem of_between {front back : List Char} (h : Nested true (front ++ (cs ++ back)))
    (hfront : ∀ c ∈ front, c ≠ '(' ∧ c ≠ ')') (hback : ∀ c ∈ back, c ≠ '(' ∧ c ≠ ')') :
    Nested true cs := by
  rw [nested_iff_openBehind, openBehind_append, openBehind_of_forall hfront] at h
  exact (nested_iff_openBehind.mpr h).of_append hback

/-- The pieces between commas have matching parentheses if the whole does. -/
theorem of_mem_cutAtCommas {commas : Bool} (h : Nested commas cs) :
    ∀ t ∈ cutAtCommas 0 cs, Nested true t := by
  -- what has no comma outside parentheses is put in front of the first piece
  have hmodify : ∀ {pre : List Char} {pieces : List (List Char)}, Nested true pre →
      (∀ t ∈ pieces, Nested true t) → ∀ t ∈ pieces.modifyHead (pre ++ ·), Nested true t := by
    intro pre pieces hpre hpieces t ht
    cases pieces with
    | nil => exact hpieces t ht
    | cons piece pieces =>
      rw [List.modifyHead_cons] at ht
      rcases List.mem_cons.mp ht with rfl | ht
      · exact hpre.append (hpieces piece (by simp))
      · exact hpieces t (by simp [ht])
  induction h with
  | nil =>
    intro t ht
    rw [List.mem_singleton.mp ht]
    exact .nil
  | @char _ c cs h1 h2 h3 _ ih =>
    have hc : Nested false [c] := .char h1 h2 h3 .nil
    have hcut := hc.cutAtCommas_append 0 (by simp) cs
    rw [List.singleton_append] at hcut
    rw [hcut]
    exact hmodify hc.withCommas ih
  | comma _ ih =>
    rw [cutAtCommas, if_pos ⟨rfl, rfl⟩]
    intro t ht
    rcases List.mem_cons.mp ht with rfl | ht
    · exact .nil
    · exact ih t ht
  | @group _ inner cs hi _ _ ih =>
    have hgroup : Nested false ('(' :: (inner ++ ')' :: [])) := .group hi .nil
    have hcut := hgroup.cutAtCommas_append 0 (by simp) cs
    have htext : '(' :: (inner ++ ')' :: []) ++ cs = '(' :: (inner ++ ')' :: cs) := by simp
    rw [htext] at hcut
    rw [hcut]
    exact hmodify hgroup.withCommas ih

end Nested

end Mathpad.Brackets
