import Mathpad.Proofs.Landing

/-!
# Up and down keep the order of places

A movement up or down leads from every place of one part of a fraction to the first of the nearest
places of the other one. Of two points the one further to the right has no nearest place further to
the left: the middle between the two places would have to lie to the left of the one point, and not to
the left of the other (`Cursor.IsNearest.mono`). So the places that a row is matched with are in order
(`Cursor.matchPlaces_ordered`), as long as no token is drawn with a negative width, and the cursor never
crosses its own way.
-/
set_option autoImplicit false

namespace Mathpad

/-! ## Widths -/

/-- No token is drawn with a negative width. -/
def Renderer.Extends (r : Renderer) : Prop := ∀ t, 0 ≤ (r.size (.ofToken t) 0).width

/-- Drawn with characters, every token has a width of zero or more: a name is as wide as it is long.
-/
theorem Renderer.ascii_extends : ascii.Extends := by
  intro t
  cases t <;> exact zero_le_one

namespace Block

variable {r : Renderer}

theorem alongBaseline_width_nonneg (a b : Block) : 0 ≤ (a.alongBaseline b).area.width := by
  unfold alongBaseline
  split <;> exact extent_width_nonneg

/-- A row of blocks, even an empty one, has a width that is not negative. -/
theorem row_width_nonneg (bs : List Block) : 0 ≤ (row bs).area.width := by
  have hjoin : ∀ (cs : List Block) (done : Block), 0 ≤ done.area.width →
      0 ≤ (cs.foldl (fun done b => done.alongBaseline (b.rightOf done)) done).area.width := by
    intro cs
    induction cs with
    | nil => exact fun done hdone => hdone
    | cons c cs ih => exact fun done _ => ih _ (alongBaseline_width_nonneg done _)
  exact hjoin _ empty (le_refl 0)

theorem ofRow_width_nonneg (level : Int) (path : Option Path) (items : Row) :
    Meets (ofRow r level path items) (fun b => 0 ≤ b.area.width) fun _ => True := by
  refine Meets.after fun target => Meets.after fun bs => Meets.after fun cs => ?_
  cases cs <;> exact row_width_nonneg _

/-- What is put together from other blocks has an extent of its own. -/
theorem ofItem_width_nonneg (hr : r.Extends) (item : Item) :
    Meets (ofItem r 0 none item) (fun b => 0 ≤ b.area.width) fun _ => True := by
  cases item with
  | token t => exact hr t
  | sqrt inner =>
    rw [ofItem_sqrt]
    exact Meets.after fun path => Meets.after fun b => extent_width_nonneg
  | parentheses inner =>
    rw [ofItem_parentheses]
    exact Meets.after fun path => Meets.after fun b => row_width_nonneg _
  | power exponent =>
    rw [ofItem_power]
    exact Meets.after fun path => (ofRow_width_nonneg 1 path exponent).bind fun b hb => hb
  | fraction top bottom =>
    rw [ofItem_fraction]
    exact Meets.after fun parts => Meets.after fun a => Meets.after fun b => extent_width_nonneg
  | call f args =>
    rw [Block.ofItem]
    exact Meets.after fun bs => row_width_nonneg _

end Block

namespace Cursor

variable {r : Renderer} {ws vs : List Int}

/-- No item of a row is drawn with a negative width: tokens are not, and everything else is put
together from areas. -/
theorem widths_nonneg (hr : r.Extends) {row : Row} (h : widths r row = .ok ws) :
    ∀ w ∈ ws, 0 ≤ w := by
  have hmeets : Meets (widths r row) (List.Forall₂ (fun _ w => 0 ≤ w) row) fun _ => True :=
    Meets.mapM fun item _ => (Block.ofItem_width_nonneg hr item).bind fun b hb => hb
  intro w hw
  obtain ⟨item, -, hitem⟩ := exists_of_forall₂_right (hmeets.of_ok h) hw
  exact hitem

/-! ## Boundaries -/

/-- The column of the boundary that has `i` items in front of it, in a row that begins at `start`. -/
def boundary (start : Int) (ws : List Int) (i : Nat) : Int := start + (ws.take i).sum

/-- The boundaries of a row are those that its widths add up to. -/
theorem getElem?_boundaries (start : Int) {i : Nat} (h : i ≤ ws.length) :
    (boundaries start ws)[i]? = some (boundary start ws i) := by
  induction ws generalizing start i with
  | nil =>
    obtain rfl : i = 0 := Nat.le_zero.mp h
    simp [boundaries, boundary]
  | cons w ws ih =>
    cases i with
    | zero => simp [boundaries, boundary]
    | succ i =>
      rw [boundaries, List.getElem?_cons_succ, ih _ (Nat.le_of_succ_le_succ h), boundary, boundary,
        List.take_succ_cons, List.sum_cons, add_assoc]

theorem boundary_mono (start : Int) (h : ∀ w ∈ ws, 0 ≤ w) {i j : Nat} (hij : i ≤ j) :
    boundary start ws i ≤ boundary start ws j := by
  refine monotone_nat_of_le_succ (f := boundary start ws) (fun i => ?_) hij
  unfold boundary
  by_cases hi : i < ws.length
  · have hw := h ws[i] (List.getElem_mem hi)
    rw [List.take_succ_eq_append_getElem hi, List.sum_append, List.sum_singleton]
    omega
  · rw [List.take_of_length_le (by omega), List.take_of_length_le (by omega)]

/-! ## Nearest places -/

/-- A point that is nearer to `q` than to the smaller `u` lies to the right of the middle. -/
theorem middle_lt_of_nearer {p q u : Int} (huq : u ≤ q) (h : (q - p).natAbs < (u - p).natAbs) :
    u + q < 2 * p := by
  omega

/-- A point that is not nearer to `q` than to the smaller `u` does not lie to the right of the middle. -/
theorem le_middle_of_not_nearer {p q u : Int} (huq : u < q) (h : (u - p).natAbs ≤ (q - p).natAbs) :
    2 * p ≤ u + q := by
  omega

/-- A point further to the right has no nearest place further to the left. -/
theorem IsNearest.mono {points : List Int} (hsorted : points.Pairwise (· ≤ ·)) {p p' : Int}
    {j j' : Nat} (h : IsNearest p points j) (h' : IsNearest p' points j') (hp : p ≤ p') : j ≤ j' := by
  obtain ⟨q, hq, -, hfirst⟩ := h
  obtain ⟨q', hq', hleast, -⟩ := h'
  by_contra hlt
  have hbefore : j' < j := Nat.lt_of_not_le hlt
  obtain ⟨hj, rfl⟩ := List.getElem?_eq_some_iff.mp hq
  obtain ⟨hj', rfl⟩ := List.getElem?_eq_some_iff.mp hq'
  have horder : points[j'] ≤ points[j] := List.pairwise_iff_getElem.mp hsorted j' j hj' hj hbefore
  -- the first point is strictly nearer to its own place, so the places differ
  have hnearer := hfirst j' hbefore _ hq'
  have hright := middle_lt_of_nearer horder hnearer
  have hapart : points[j'] < points[j] := by
    refine lt_of_le_of_ne horder fun heq => ?_
    rw [heq] at hnearer
    exact lt_irrefl _ hnearer
  have hleft := le_middle_of_not_nearer hapart (hleast _ (List.getElem_mem hj))
  omega

/-! ## Matching -/

/-- Where a row begins that is as wide as `own`, above or below one that is as wide as `other`: the
narrower one is moved to the right by half of the difference, rounded down. -/
def centred (own other : Int) : Int := max ((other - own) / 2) 0

/-- For every place of a row the index of the nearest place of the other one. -/
def nearestPlaces (ws vs : List Int) : List Nat :=
  (boundaries (centred ws.sum vs.sum) ws).map (Cursor.nearest · (boundaries (centred vs.sum ws.sum) vs))

/-- Matching places finds, for each boundary of one row, the nearest boundary of the other. -/
theorem matchPlaces_nearest {source target : Row} (hws : widths r source = .ok ws)
    (hvs : widths r target = .ok vs) : matchPlaces r source target = .ok (nearestPlaces ws vs) := by
  have hsource : (if 0 < vs.sum - ws.sum then (vs.sum - ws.sum) / 2 else 0) =
      centred ws.sum vs.sum := by
    unfold centred
    split <;> omega
  have htarget : (if vs.sum - ws.sum < 0 then -(vs.sum - ws.sum) / 2 else 0) =
      centred vs.sum ws.sum := by
    unfold centred
    split <;> omega
  rw [matchPlaces, hws, ok_bind, hvs, ok_bind, nearestPlaces, ← hsource, ← htarget]
  rfl

/-- How far the place `k` of a row with items of the widths `vs` is, in columns, from the place `i` of one
with items of the widths `ws`. -/
def gap (ws vs : List Int) (i k : Nat) : Nat :=
  (boundary (centred vs.sum ws.sum) vs k - boundary (centred ws.sum vs.sum) ws i).natAbs

/-- Each place of the first row is matched with the first of the places of the second one that are nearest
to it. -/
structure Matched (ws vs : List Int) (places : List Nat) : Prop where
  length : places.length = ws.length + 1
  le : ∀ k ∈ places, k ≤ vs.length
  nearest : ∀ i k, places[i]? = some k → ∀ j ≤ vs.length, gap ws vs i k ≤ gap ws vs i j
  first : ∀ i k, places[i]? = some k → ∀ j < k, gap ws vs i k < gap ws vs i j

/-- Each boundary in the list is the one that its index says. -/
theorem getElem_boundaries (start : Int) {i : Nat} (h : i < (boundaries start ws).length) :
    (boundaries start ws)[i] = boundary start ws i := by
  have hi : i ≤ ws.length := by
    rw [length_boundaries] at h
    omega
  exact (List.getElem?_eq_some_iff.mp (getElem?_boundaries start hi)).2

/-- Where no width is negative, the boundaries are listed in ascending order. -/
theorem pairwise_boundaries (start : Int) (h : ∀ w ∈ ws, 0 ≤ w) :
    (boundaries start ws).Pairwise (· ≤ ·) := by
  refine List.pairwise_iff_getElem.mpr fun i j hi hj hlt => ?_
  rw [getElem_boundaries, getElem_boundaries]
  exact boundary_mono start h hlt.le

theorem isNearest_boundaries (start p : Int) (vs : List Int) :
    IsNearest p (boundaries start vs) (Cursor.nearest p (boundaries start vs)) :=
  isNearest_nearest (List.ne_nil_of_length_eq_add_one (length_boundaries start vs)) p

/-- A nearest point, in terms of where the boundaries are. -/
theorem IsNearest.boundary {start p : Int} {k : Nat} (h : IsNearest p (boundaries start vs) k) :
    k ≤ vs.length ∧
      (∀ j ≤ vs.length, (boundary start vs k - p).natAbs ≤ (boundary start vs j - p).natAbs) ∧
      ∀ j < k, (boundary start vs k - p).natAbs < (boundary start vs j - p).natAbs := by
  obtain ⟨q, hq, hleast, hfirst⟩ := h
  obtain ⟨hk, rfl⟩ := List.getElem?_eq_some_iff.mp hq
  have hle : k ≤ vs.length := by
    rw [length_boundaries] at hk
    omega
  rw [getElem_boundaries] at hleast hfirst
  refine ⟨hle, fun j hj => ?_, fun j hj => ?_⟩
  · exact hleast _ (List.mem_of_getElem? (getElem?_boundaries start hj))
  · exact hfirst j hj _ (getElem?_boundaries start (hj.le.trans hle))

/-- The nearest places match in the sense of this module, whatever the widths are. -/
theorem matched_nearestPlaces (ws vs : List Int) : Matched ws vs (nearestPlaces ws vs) := by
  have hplace : ∀ i k, (nearestPlaces ws vs)[i]? = some k →
      IsNearest (boundary (centred ws.sum vs.sum) ws i) (boundaries (centred vs.sum ws.sum) vs) k := by
    intro i k hk
    rw [nearestPlaces, List.getElem?_map, Option.map_eq_some_iff] at hk
    obtain ⟨p, hp, rfl⟩ := hk
    obtain ⟨hi, rfl⟩ := List.getElem?_eq_some_iff.mp hp
    rw [getElem_boundaries]
    exact isNearest_boundaries _ _ vs
  refine ⟨?_, fun k hk => ?_, fun i k hk => ?_, fun i k hk => ?_⟩
  · rw [nearestPlaces, List.length_map, length_boundaries]
  · obtain ⟨i, hi⟩ := List.getElem?_of_mem hk
    exact (hplace i k hi).boundary.1
  · exact (hplace i k hk).boundary.2.1
  · exact (hplace i k hk).boundary.2.2

/-- Where no width is negative, the nearest places come in ascending order, as a boundary further to
the right is nearest to one that is not further to the left. -/
theorem pairwise_nearestPlaces (hws : ∀ w ∈ ws, 0 ≤ w) (hvs : ∀ v ∈ vs, 0 ≤ v) :
    (nearestPlaces ws vs).Pairwise (· ≤ ·) := by
  refine List.pairwise_map.mpr ((pairwise_boundaries _ hws).imp fun hle => ?_)
  exact (isNearest_boundaries _ _ vs).mono (pairwise_boundaries _ hvs) (isNearest_boundaries _ _ vs) hle

/-- Up and down, the places of the one row are matched with those of the other one that are nearest, the
first of them if there are two; and in their order, if no token is drawn with a negative width, as none is
in text. -/
theorem matchPlaces_ordered (r : Renderer) (d : Direction) (top bottom : Row) :
    Renderer.ascii.Extends ∧ ∃ ws vs places,
      widths r (d.here top bottom) = .ok ws ∧ widths r (d.there top bottom) = .ok vs ∧
      ws.length = (d.here top bottom).length ∧ vs.length = (d.there top bottom).length ∧
      matchPlaces r (d.here top bottom) (d.there top bottom) = .ok places ∧ Matched ws vs places ∧
      (r.Extends → places.Pairwise (· ≤ ·)) := by
  obtain ⟨ws, hws, hlength⟩ := (widths_meets r (d.here top bottom)).exists_ok
  obtain ⟨vs, hvs, hlength'⟩ := (widths_meets r (d.there top bottom)).exists_ok
  refine ⟨Renderer.ascii_extends, ws, vs, nearestPlaces ws vs, hws, hvs, hlength, hlength',
    matchPlaces_nearest hws hvs, matched_nearestPlaces ws vs, fun hr => ?_⟩
  exact pairwise_nearestPlaces (widths_nonneg hr hws) (widths_nonneg hr hvs)

/-- One over a number of four digits, in text: downwards the two places of the one are matched with the
second and the third place of the other. -/
theorem matchPlaces_ordered_four :
    let top : Row := [.digit 1]
    let bottom : Row := [.digit 1, .digit 2, .digit 3, .digit 4]
    ∃ ws vs places, widths Renderer.ascii top = .ok ws ∧ widths Renderer.ascii bottom = .ok vs ∧
      ws.length = 1 ∧ vs.length = 4 ∧ matchPlaces Renderer.ascii top bottom = .ok places ∧
      Matched ws vs places ∧ places.Pairwise (· ≤ ·) ∧ places = [1, 2] := by
  intro top bottom
  obtain ⟨hextends, ws, vs, places, hws, hvs, hlength, hlength', hplaces, hmatched, hordered⟩ :=
    matchPlaces_ordered Renderer.ascii .down top bottom
  have hfound : matchPlaces Renderer.ascii top bottom = .ok [1, 2] := rfl
  exact ⟨ws, vs, places, hws, hvs, hlength, hlength', hplaces, hmatched, hordered hextends,
    Except.ok.inj (hplaces.symm.trans hfound)⟩

end Cursor
end Mathpad
