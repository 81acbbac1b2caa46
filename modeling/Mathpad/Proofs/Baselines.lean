import Mathlib.Order.Bounds.Basic
import Mathpad.Proofs.Grouping

/-!
# Where the blocks of a row stand

Blocks are put into a row in two passes: first each superscript is put to what stands on its left,
then the groups are put side by side. What two blocks side by side are like is known
(`beside_alike`, `beside_superscript`); a statement about rows follows from that along both passes
(`row_groups`).

Every block of a row stands where the widths of the blocks before it end, and is moved down by some
length (`row_spreads`). If the row does not begin with a superscript then that length is known as
well (`row_arranged`): a block is moved to the baseline of the row, and a superscript to right above
all of its group that stands on its left.
-/
set_option autoImplicit false

namespace Mathpad.Block

open List (Forall₂)

variable {a b c : Block}

/-! ## Rows by their groups -/

section Groups

variable {R G : Block → List Block → Prop} {bs row groups : List Block} {css : List (List Block)}

/-- One more block makes a group of its own, or is the last one of the group before it. The groups
are listed from the last one on. -/
theorem attach_forall₂ (hrow : Forall₂ G row css)
    (single : (row = [] ∨ b.special.binds = false) → G b [b])
    (attached : ∀ {a cs}, b.special.binds = true → G a cs → G (a.beside b) (cs ++ [b])) :
    ∃ dss, Forall₂ G (attach row b) dss ∧ dss.reverse.flatten = css.reverse.flatten ++ [b] := by
  cases hrow with
  | nil => exact ⟨[[b]], .cons (single (.inl rfl)) .nil, rfl⟩
  | @cons left ds more dss hleft hmore =>
    cases hbinds : b.special.binds with
    | true =>
      refine ⟨(ds ++ [b]) :: dss, ?_, by simp⟩
      rw [attach_cons_of_binds hbinds]
      exact .cons (attached hbinds hleft) hmore
    | false =>
      refine ⟨[b] :: ds :: dss, ?_, by simp⟩
      rw [attach_of_not_binds hbinds]
      exact .cons (single (.inr hbinds)) (.cons hleft hmore)

/-- Gathering blocks splits a row into groups, each of which has the property that single blocks
have and attaching keeps. -/
theorem foldl_attach_forall₂ (hrow : Forall₂ G row css)
    (single : ∀ b ∈ bs, ((row = [] ∧ bs.head? = some b) ∨ b.special.binds = false) → G b [b])
    (attached : ∀ b ∈ bs, ∀ {a cs}, b.special.binds = true → G a cs → G (a.beside b) (cs ++ [b])) :
    ∃ dss, Forall₂ G (bs.foldl attach row) dss ∧
      dss.reverse.flatten = css.reverse.flatten ++ bs := by
  induction bs generalizing row css with
  | nil => exact ⟨css, hrow, (List.append_nil _).symm⟩
  | cons b bs ih =>
    obtain ⟨dss, hdss, hflat⟩ := attach_forall₂ hrow
      (fun h => single b (by simp) (h.imp_left fun hnil => ⟨hnil, rfl⟩)) (attached b (by simp))
    -- once there is a group, only blocks that do not bind begin one
    obtain ⟨ess, hess, hflat'⟩ := ih hdss
      (fun c hc h => single c (by simp [hc]) (.inr (h.resolve_left fun hnil =>
        attach_ne_nil row b hnil.1)))
      (fun c hc => attached c (by simp [hc]))
    exact ⟨ess, hess, by rw [hflat', hflat, List.append_assoc, List.singleton_append]⟩

/-- Putting groups side by side joins what is said of them. -/
theorem foldl_beside_forall₂ (put : ∀ {a b as bs}, R a as → G b bs → R (a.beside b) (as ++ bs))
    (h : Forall₂ G groups css) {done : Block} (hdone : R done bs) :
    R (groups.foldl beside done) (bs ++ css.flatten) := by
  induction h generalizing done bs with
  | nil => simpa using hdone
  | cons hb _ ih =>
    rw [List.foldl_cons, List.flatten_cons, ← List.append_assoc]
    exact ih (put hdone hb)

/-- A statement `R` about a row and its blocks follows from one about groups, `G`: what is true of
single blocks, remains true of a group to which a superscript is put, and makes `R` remain true when
a group is put to the row. -/
theorem row_groups (start : R empty [])
    (put : ∀ {a b as bs}, R a as → G b bs → R (a.beside b) (as ++ bs))
    (single : ∀ b ∈ bs, (bs.head? = some b ∨ b.special.binds = false) → G b [b])
    (attached : ∀ b ∈ bs, ∀ {a cs}, b.special.binds = true → G a cs → G (a.beside b) (cs ++ [b])) :
    R (Block.row bs) bs := by
  obtain ⟨css, hcss, hflat⟩ := foldl_attach_forall₂ Forall₂.nil
    (fun b hb h => single b hb (h.imp_left And.right)) attached
  have hrow := foldl_beside_forall₂ put (List.rel_reverse hcss) start
  rwa [List.nil_append, hflat] at hrow

end Groups

/-! ## Side by side -/

/-- The glyphs of blocks side by side, the first one at a column; with each block stands how far it is
moved down. -/
def spread : Int → List (Block × Int) → List PlacedGlyph
  | _, [] => []
  | x, (b, down) :: ps => b.glyphs.map (·.moved x down) ++ spread (x + b.area.width) ps

/-- Each block moved down further. -/
def lowered (n : Int) (ps : List (Block × Int)) : List (Block × Int) :=
  ps.map fun p => (p.1, p.2 + n)

/-- The width of all blocks together. -/
def totalWidth (ps : List (Block × Int)) : Int := (ps.map (·.1.area.width)).sum

section Spread

variable {ps qs : List (Block × Int)} {n x dx dy : Int}

@[simp] theorem map_fst_lowered : (lowered n ps).map Prod.fst = ps.map Prod.fst := by
  rw [lowered, List.map_map]
  rfl

@[simp] theorem totalWidth_lowered : totalWidth (lowered n ps) = totalWidth ps := by
  rw [totalWidth, totalWidth, lowered, List.map_map]
  rfl

theorem totalWidth_append : totalWidth (ps ++ qs) = totalWidth ps + totalWidth qs := by
  rw [totalWidth, List.map_append, List.sum_append]
  rfl

theorem spread_append : spread x (ps ++ qs) = spread x ps ++ spread (x + totalWidth ps) qs := by
  induction ps generalizing x with
  | nil => simp [spread, totalWidth]
  | cons p ps ih =>
    rw [List.cons_append, spread, spread, ih, List.append_assoc, Int.add_assoc]
    rfl

/-- Moving what is spread moves its first column, and each block down. -/
theorem map_moved_spread :
    (spread x ps).map (·.moved dx dy) = spread (x + dx) (lowered dy ps) := by
  induction ps generalizing x with
  | nil => rfl
  | cons p ps ih =>
    rw [spread, List.map_append, map_moved_map, ih, Int.add_right_comm]
    rfl

end Spread

/-- A block consists of others side by side, each moved down by some length. -/
structure Spreads (b : Block) (ps : List (Block × Int)) : Prop where
  glyphs : b.glyphs.Perm (spread 0 ps)
  area : b.area = extent b.glyphs
  width : b.area.width = totalWidth ps

/-- What two blocks side by side reach to the right. -/
theorem abreast_width (ha : a.area = extent a.glyphs) (hb : b.area = extent b.glyphs)
    (down down' baseline : Int) :
    (abreast a b down down' baseline).area.width = a.area.width + b.area.width := by
  -- widths are compared by what they are bounded by, as they are largest extents
  refine eq_of_forall_ge_iff fun n => ?_
  have hwide : 0 ≤ a.area.width := by
    rw [ha]
    exact extent_width_nonneg
  have hleft : a.area.width ≤ n ↔ 0 ≤ n ∧ ∀ g ∈ a.glyphs, g.right ≤ n := by
    rw [ha]
    exact extent_width_le_iff
  have hright : b.area.width ≤ n - a.area.width ↔
      0 ≤ n - a.area.width ∧ ∀ g ∈ b.glyphs, g.right ≤ n - a.area.width := by
    rw [hb]
    exact extent_width_le_iff
  have hall : (abreast a b down down' baseline).area.width ≤ n ↔ 0 ≤ n ∧
      (∀ g ∈ a.glyphs, g.right ≤ n) ∧ ∀ g ∈ b.glyphs, g.right ≤ n - a.area.width := by
    refine extent_width_le_iff.trans (and_congr_right' ?_)
    rw [List.forall_mem_append, List.forall_mem_map, List.forall_mem_map]
    simp only [PlacedGlyph.right_moved, Int.add_zero, le_sub_iff_add_le]
  rw [hall, ← and_assoc, ← hleft, Int.add_comm, ← le_sub_iff_add_le, hright]
  constructor
  · rintro ⟨h, h'⟩
    exact ⟨by omega, h'⟩
  · rintro ⟨h, h'⟩
    exact ⟨by omega, h'⟩

variable {ps qs : List (Block × Int)}

/-- What looks like two blocks side by side consists of what they consist of, each moved down. -/
theorem Spreads.abreast (ha : a.Spreads ps) (hb : b.Spreads qs) {down down' baseline : Int}
    (hc : c.Alike (Block.abreast a b down down' baseline)) :
    c.Spreads (lowered down ps ++ lowered down' qs) where
  glyphs := by
    refine hc.glyphs.trans (((ha.glyphs.map _).append (hb.glyphs.map _)).trans ?_)
    rw [map_moved_spread, map_moved_spread, spread_append, totalWidth_lowered, ha.width,
      Int.add_zero]
  area := hc.area.trans (extent_perm hc.glyphs.symm)
  width := by
    rw [hc.area, abreast_width ha.area hb.area, totalWidth_append, totalWidth_lowered,
      totalWidth_lowered, ha.width, hb.width]

theorem spreads_empty : empty.Spreads [] := ⟨.refl _, rfl, rfl⟩

theorem spreads_singleton (h : b.area = extent b.glyphs) : b.Spreads [(b, 0)] where
  glyphs := by
    rw [spread, spread, List.append_nil, map_moved_zero]
  area := h
  width := (Int.add_zero _).symm

/-- Two blocks side by side, as a superscript or on one baseline. -/
theorem Spreads.beside (ha : a.Spreads ps) (hb : b.Spreads qs) :
    ∃ down down', (a.beside b).Spreads (lowered down ps ++ lowered down' qs) := by
  cases hsuper : b.special.superscript with
  | true =>
    have hlook : (a.beside b).Alike
        (Block.abreast a b b.area.height 0 (a.baseline + b.area.height)) := by
      rw [beside_superscript hb.area hsuper]
      exact .refl _
    exact ⟨_, _, ha.abreast hb hlook⟩
  | false => exact ⟨_, _, ha.abreast hb (beside_alike hsuper)⟩

/-- Every row consists of its blocks side by side. -/
theorem row_spreads {bs : List Block} (h : ∀ b ∈ bs, b.area = extent b.glyphs) :
    ∃ ps, ps.map Prod.fst = bs ∧ (row bs).Spreads ps := by
  have hput : ∀ {a b : Block} {as bs : List Block},
      (∃ ps, ps.map Prod.fst = as ∧ a.Spreads ps) → (∃ qs, qs.map Prod.fst = bs ∧ b.Spreads qs) →
      ∃ rs, rs.map Prod.fst = as ++ bs ∧ (a.beside b).Spreads rs := by
    rintro a b _ _ ⟨ps, rfl, ha⟩ ⟨qs, rfl, hb⟩
    obtain ⟨down, down', hboth⟩ := ha.beside hb
    exact ⟨_, by simp, hboth⟩
  have hsingle : ∀ b ∈ bs, ∃ ps, ps.map Prod.fst = [b] ∧ b.Spreads ps :=
    fun b hb => ⟨[(b, 0)], rfl, spreads_singleton (h b hb)⟩
  refine row_groups (R := fun b bs => ∃ ps, ps.map Prod.fst = bs ∧ b.Spreads ps)
    (G := fun b bs => ∃ ps, ps.map Prod.fst = bs ∧ b.Spreads ps) ⟨[], rfl, spreads_empty⟩ hput
    (fun b hb _ => hsingle b hb) fun b hb _ _ _ ha => hput ha (hsingle b hb)

/-! ## Baselines and superscripts -/

/-- The lines in which the glyphs of some blocks begin. -/
def tops (ps : List (Block × Int)) : Set Int :=
  {y | ∃ p ∈ ps, ∃ g ∈ p.1.glyphs, g.place.y + p.2 = y}

/-- How far down a block stands on a baseline, with the blocks before it: its own baseline is on that
one, or it ends right above the topmost line of the group on its left. This is a block that is no
superscript with all the superscripts behind it. -/
structure Seat (baseline : Int) (before : List (Block × Int)) (p : Block × Int) : Prop where
  nonneg : 0 ≤ p.2
  level : p.1.special.superscript = false → p.2 + p.1.baseline = baseline
  raised : p.1.special.superscript = true → ∃ others base supers,
    before = others ++ base :: supers ∧ base.1.special.superscript = false ∧
      (∀ s ∈ supers, s.1.special.superscript = true) ∧
      IsLeast (tops (base :: supers)) (p.2 + p.1.area.height)

/-- A block consists of others side by side, each of which has its seat. -/
structure Arranged (b : Block) (ps : List (Block × Int)) : Prop extends b.Spreads ps where
  seats : ∀ (k : Nat) (p : Block × Int), ps[k]? = some p → Seat b.baseline (ps.take k) p

section Seats

variable {baseline n y : Int} {before : List (Block × Int)} {p : Block × Int}

/-- Moving blocks down moves their topmost line. -/
theorem isLeast_tops_lowered (h : IsLeast (tops ps) y) : IsLeast (tops (lowered n ps)) (y + n) := by
  obtain ⟨⟨p, hp, g, hg, hy⟩, hleast⟩ := h
  constructor
  · exact ⟨(p.1, p.2 + n), List.mem_map_of_mem hp, g, hg, by omega⟩
  · rintro _ ⟨q, hq, g, hg, rfl⟩
    obtain ⟨p, hp, rfl⟩ := List.mem_map.mp hq
    have := hleast ⟨p, hp, g, hg, rfl⟩
    dsimp only at *
    omega

/-- A block keeps its seat when everything is moved down together. -/
theorem Seat.lowered (h : Seat baseline before p) (hn : 0 ≤ n) :
    Seat (baseline + n) (lowered n before) (p.1, p.2 + n) where
  nonneg := Int.add_nonneg h.nonneg hn
  level hlevel := by
    have := h.level hlevel
    dsimp only
    omega
  raised hraised := by
    obtain ⟨others, base, supers, rfl, hbase, hsupers, hleast⟩ := h.raised hraised
    refine ⟨_, (base.1, base.2 + n), Block.lowered n supers, List.map_append, hbase,
      List.forall_mem_map.mpr hsupers, ?_⟩
    have hlowered := isLeast_tops_lowered (n := n) hleast
    rwa [Int.add_right_comm] at hlowered

/-- The blocks further left do not matter. -/
theorem Seat.append_left (h : Seat baseline before p) (front : List (Block × Int)) :
    Seat baseline (front ++ before) p where
  nonneg := h.nonneg
  level := h.level
  raised hraised := by
    obtain ⟨others, base, supers, rfl, hgroup⟩ := h.raised hraised
    exact ⟨front ++ others, base, supers, by rw [List.append_assoc], hgroup⟩

/-- The seats of blocks that are moved down, in front of others. -/
theorem seats_append {front back : List (Block × Int)}
    (hfront : ∀ k p, front[k]? = some p → Seat baseline (front.take k) p)
    (hback : ∀ k p, back[k]? = some p → Seat baseline (front ++ back.take k) p)
    (k : Nat) (p : Block × Int) (h : (front ++ back)[k]? = some p) :
    Seat baseline ((front ++ back).take k) p := by
  rw [List.take_append]
  rcases lt_or_ge k front.length with hk | hk
  · rw [List.getElem?_append_left hk] at h
    rw [Nat.sub_eq_zero_of_le hk.le, List.take_zero, List.append_nil]
    exact hfront k p h
  · rw [List.getElem?_append_right hk] at h
    rw [List.take_of_length_le hk]
    exact hback _ p h

theorem seats_singleton {front : List (Block × Int)} (h : Seat baseline front p) (k : Nat)
    (q : Block × Int) (hk : [p][k]? = some q) : Seat baseline (front ++ [p].take k) q := by
  cases k with
  | zero =>
    cases hk
    rwa [List.take_zero, List.append_nil]
  | succ k => cases hk

/-- All blocks keep their seats when they are moved down together. -/
theorem seats_lowered (h : ∀ k p, ps[k]? = some p → Seat baseline (ps.take k) p) (hn : 0 ≤ n)
    (k : Nat) (p : Block × Int) (hk : (lowered n ps)[k]? = some p) :
    Seat (baseline + n) ((lowered n ps).take k) p := by
  rw [lowered, List.getElem?_map, Option.map_eq_some_iff] at hk
  obtain ⟨q, hq, rfl⟩ := hk
  rw [lowered, ← List.map_take]
  exact (h k q hq).lowered hn

end Seats

/-- On one baseline all blocks keep their seats. -/
theorem Arranged.beside (ha : a.Arranged ps) (hb : b.Arranged qs)
    (hsuper : b.special.superscript = false) :
    ∃ down down', (a.beside b).Arranged (lowered down ps ++ lowered down' qs) := by
  have hlook := beside_alike (a := a) hsuper
  refine ⟨_, _, ha.toSpreads.abreast hb.toSpreads hlook, ?_⟩
  have hbaseline : (a.beside b).baseline = max a.baseline b.baseline := hlook.baseline
  rw [hbaseline]
  refine seats_append (fun k p hk => ?_) fun k p hk => Seat.append_left ?_ _
  · have hseat := seats_lowered ha.seats (n := max a.baseline b.baseline - a.baseline) (by omega)
      k p hk
    rwa [add_sub_cancel] at hseat
  · have hseat := seats_lowered hb.seats (n := max a.baseline b.baseline - b.baseline) (by omega)
      k p hk
    rwa [add_sub_cancel] at hseat

/-- A block that can be put into a row: some glyph of it is in the first line and none is above,
its area is that of its glyphs, and it binds if and only if it is a superscript. -/
structure Placeable (b : Block) : Prop where
  nonneg : ∀ g ∈ b.glyphs, 0 ≤ g.place.y
  top : ∃ g ∈ b.glyphs, g.place.y = 0
  area : b.area = extent b.glyphs
  special : b.special.binds = b.special.superscript

/-- A group: a block that is no superscript, with superscripts. It begins in the first line. -/
structure Grouped (b : Block) (ps : List (Block × Int)) : Prop extends b.Arranged ps where
  plain : b.special.superscript = false
  shape : ∃ base supers, ps = base :: supers ∧ base.1.special.superscript = false ∧
    ∀ s ∈ supers, s.1.special.superscript = true
  top : IsLeast (tops ps) 0

/-- A block that is no superscript begins a group. -/
theorem Placeable.grouped (h : b.Placeable) (hplain : b.special.superscript = false) :
    b.Grouped [(b, 0)] where
  toSpreads := spreads_singleton h.area
  seats := by
    have hseat : Seat b.baseline [] (b, 0) :=
      ⟨le_rfl, fun _ => Int.zero_add _, fun hraised => by simp [hplain] at hraised⟩
    exact seats_singleton hseat
  plain := hplain
  shape := ⟨(b, 0), [], rfl, hplain, List.forall_mem_nil _⟩
  top := by
    obtain ⟨g, hg, hzero⟩ := h.top
    refine ⟨⟨(b, 0), by simp, g, hg, by simpa using hzero⟩, ?_⟩
    rintro _ ⟨p, hp, u, hu, rfl⟩
    obtain rfl := List.mem_singleton.mp hp
    exact Int.add_nonneg (h.nonneg u hu) le_rfl

/-- A superscript is put right above a group, which goes on with it. -/
theorem Grouped.attach (ha : a.Grouped ps) (hb : b.Placeable)
    (hsuper : b.special.superscript = true) :
    (a.beside b).Grouped (lowered b.area.height ps ++ [(b, 0)]) := by
  have hbeside := beside_superscript (a := a) hb.area hsuper
  have hheight : 0 ≤ b.area.height := by
    rw [hb.area]
    exact extent_height_nonneg
  have hbaseline : (a.beside b).baseline = a.baseline + b.area.height := by
    rw [hbeside]
    rfl
  have hgroup := isLeast_tops_lowered (n := b.area.height) ha.top
  rw [Int.zero_add] at hgroup
  obtain ⟨base, supers, hshape, hbase, hsupers⟩ := ha.shape
  have hlowered : lowered b.area.height ps =
      (base.1, base.2 + b.area.height) :: lowered b.area.height supers := by
    rw [hshape]
    rfl
  have hraised : ∀ s ∈ lowered b.area.height supers, s.1.special.superscript = true :=
    List.forall_mem_map.mpr hsupers
  refine ⟨⟨?_, ?_⟩, by rw [beside_special], ?_, ?_⟩
  · have hlook : (a.beside b).Alike
        (Block.abreast a b b.area.height 0 (a.baseline + b.area.height)) := by
      rw [hbeside]
      exact .refl _
    exact ha.toSpreads.abreast (spreads_singleton hb.area) hlook
  · rw [hbaseline]
    refine seats_append (seats_lowered ha.seats hheight) (seats_singleton ?_)
    refine ⟨le_rfl, fun hplain => by simp [hsuper] at hplain, fun _ => ?_⟩
    refine ⟨[], _, _, hlowered, hbase, hraised, ?_⟩
    rwa [Int.zero_add, ← hlowered]
  · refine ⟨(base.1, base.2 + b.area.height), lowered b.area.height supers ++ [(b, 0)], ?_, hbase,
      ?_⟩
    · rw [hlowered, List.cons_append]
    · exact List.forall_mem_append.mpr ⟨hraised, List.forall_mem_singleton.mpr hsuper⟩
  · -- the superscript begins in the first line, and what it belongs to is below it
    obtain ⟨g, hg, hzero⟩ := hb.top
    refine ⟨⟨(b, 0), by simp, g, hg, by simpa using hzero⟩, ?_⟩
    rintro _ ⟨p, hp, u, hu, rfl⟩
    rcases List.mem_append.mp hp with hp | hp
    · exact hheight.trans (hgroup.2 ⟨p, hp, u, hu, rfl⟩)
    · obtain rfl := List.mem_singleton.mp hp
      exact Int.add_nonneg (hb.nonneg u hu) le_rfl

/-- The blocks of a row that does not begin with a superscript stand side by side, each in its seat. -/
theorem row_arranged {bs : List Block} (h : ∀ b ∈ bs, b.Placeable)
    (hfirst : ∀ b ∈ bs.head?, b.special.superscript = false) :
    ∃ ps, ps.map Prod.fst = bs ∧ (row bs).Arranged ps := by
  have hplain : ∀ b ∈ bs, (bs.head? = some b ∨ b.special.binds = false) →
      b.special.superscript = false := fun b hb hb' =>
    hb'.elim (hfirst b) fun hbinds => (h b hb).special ▸ hbinds
  refine row_groups (R := fun b bs => ∃ ps, ps.map Prod.fst = bs ∧ b.Arranged ps)
    (G := fun b bs => ∃ ps, ps.map Prod.fst = bs ∧ b.Grouped ps)
    ⟨[], rfl, spreads_empty, by simp⟩ ?_
    (fun b hb hb' => ⟨[(b, 0)], rfl, (h b hb).grouped (hplain b hb hb')⟩) ?_
  · rintro a b _ _ ⟨ps, rfl, ha⟩ ⟨qs, rfl, hb⟩
    obtain ⟨down, down', hboth⟩ := ha.beside hb.toArranged hb.plain
    exact ⟨_, by simp, hboth⟩
  · rintro b hb a _ hbinds ⟨ps, rfl, ha⟩
    exact ⟨_, by simp, ha.attach (h b hb) ((h b hb).special ▸ hbinds)⟩

/-- A sum of a variable with two exponents and a digit. -/
theorem row_arranged_exponents :
    let x := ofGlyph Renderer.ascii 0 (.var "x")
    let two := superscript (ofGlyph Renderer.ascii 1 (.digit 2))
    let plus := ofGlyph Renderer.ascii 0 .add
    let bs := [x, two, two, plus, ofGlyph Renderer.ascii 0 (.digit 1)]
    (∀ b ∈ bs, b.Placeable) ∧ (∀ b ∈ bs.head?, b.special.superscript = false) ∧
      ∃ ps, ps.map Prod.fst = bs ∧ (row bs).Arranged ps := by
  intro x two plus bs
  have hplaceable : ∀ b ∈ bs, b.Placeable := by
    have hx : x.Placeable := ⟨by decide, by decide, by decide, rfl⟩
    have htwo : two.Placeable := ⟨by decide, by decide, by decide, rfl⟩
    have hplus : plus.Placeable := ⟨by decide, by decide, by decide, rfl⟩
    have hone : (ofGlyph Renderer.ascii 0 (.digit 1)).Placeable :=
      ⟨by decide, by decide, by decide, rfl⟩
    simp [bs, hx, htwo, hplus, hone]
  have hfirst : ∀ b ∈ bs.head?, b.special.superscript = false := by decide
  exact ⟨hplaceable, hfirst, row_arranged hplaceable hfirst⟩

end Mathpad.Block
