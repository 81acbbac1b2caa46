import Mathpad.Proofs.Widths

/-!
# Where up and down land

In a fraction a movement up or down leads to the place of the other part that is nearest to where the
cursor was. Where places are is measured twice: to move, the parts are centred by half of the
difference of their widths; to draw them, by the difference of the halves. So, the cursor lands at
the nearest of the places that are drawn, unless the narrower part has an odd width and the wider one an
even one (`Cursor.tilt`): then it lands as if the narrower part was drawn one column further left
(`Cursor.vertical_lands`).
-/
set_option autoImplicit false

namespace Mathpad

/-! ## Frames on the way out -/

namespace Cursor

variable {r : Renderer} {d : Direction} {p : Path} {frame : Frame} {inner outer : List Frame}
  {place : Int} {depth : Nat}

/-- The part of a fraction that a movement starts from. -/
def Direction.here {α : Type} (d : Direction) (top bottom : α) : α :=
  match d with
  | up => bottom
  | down => top

/-- The part of a fraction that a movement leads to. -/
def Direction.there {α : Type} (d : Direction) (top bottom : α) : α :=
  match d with
  | up => top
  | down => bottom

/-- A movement that begins inside the frame stays in its item: this is a fraction, and the cursor is
in the part that the movement starts from. -/
def Crosses (d : Direction) (frame : Frame) : Prop :=
  frame.slot = d.source ∧ ∃ top bottom, frame.item = .fraction top bottom

/-- A place, seen from outside of some frames: the place of the outermost one. -/
def placeOutside (frames : List Frame) (place : Int) : Int :=
  frames.foldl (fun _ frame => frame.place) place

/-- The search goes on outwards from a frame that the movement does not cross. -/
theorem findVertical_skip (h : ¬ Crosses d frame) : findVertical r d p (frame :: outer) place depth =
    findVertical r d p outer frame.place (depth + 1) := by
  obtain ⟨row, i, item, slot⟩ := frame
  cases item with
  | fraction top bottom => rw [findVertical, if_neg fun hslot => h ⟨hslot, top, bottom, rfl⟩]
  | token | sqrt | parentheses | power | call => rfl

/-- The search goes on outwards from all frames that the movement does not cross. -/
theorem findVertical_append (h : ∀ frame ∈ inner, ¬ Crosses d frame) :
    findVertical r d p (inner ++ outer) place depth =
      findVertical r d p outer (placeOutside inner place) (depth + inner.length) := by
  induction inner generalizing place depth with
  | nil => rfl
  | cons frame inner ih =>
    obtain ⟨hframe, hinner⟩ := List.forall_mem_cons.mp h
    rw [List.cons_append, findVertical_skip hframe, ih hinner, List.length_cons, Nat.add_assoc,
      Nat.add_comm 1]
    rfl

/-- In a fraction that the movement crosses, the search ends at the matching place of the other
part. -/
theorem findVertical_fraction {row top bottom : Row} {k : Int} :
    findVertical r d p (⟨row, k, .fraction top bottom, d.source⟩ :: outer) place depth = do
      let places ← matchPlaces r (d.here top bottom) (d.there top bottom)
      let target ← Place.get places place
      return some (((p.pop (2 * depth + 2)).push d.target).push target) := by
  rw [findVertical, if_pos rfl]
  cases d <;> rfl

end Cursor

namespace Focus

open Cursor (placeOutside)

theorem way_append (inner outer : List Frame) : way (inner ++ outer) = way outer ++ way inner := by
  induction inner with
  | nil => exact (List.append_nil _).symm
  | cons frame inner ih => rw [List.cons_append, way, way, ih, List.append_assoc]

/-- Each frame has two indexes on the way. -/
theorem length_way (frames : List Frame) : (way frames).length = 2 * frames.length := by
  induction frames with
  | nil => rfl
  | cons frame frames ih =>
    rw [way, List.length_append, ih, List.length_cons, List.length_cons, List.length_cons,
      List.length_nil]
    omega

/-- From outside of some frames, a place is still a place in the row there. -/
theorem Leads.outside {root row : Row} {inner outer : List Frame} (h : Leads root (inner ++ outer) row)
    {place : Nat} (hplace : place ≤ row.length) : ∃ (around : Row) (i : Nat),
      Leads root outer around ∧ i ≤ around.length ∧ placeOutside inner place = i := by
  induction inner generalizing row place with
  | nil => exact ⟨row, place, h, hplace, rfl⟩
  | cons frame inner ih =>
    cases h with
    | inward hleads hitem hslot =>
      obtain ⟨hindex, -⟩ := List.getElem?_eq_some_iff.mp hitem
      exact ih hleads hindex.le

/-- A frame that leads to a row has it as one of its item's rows. -/
theorem Leads.exists_slot {root row : Row} {frame : Frame} {frames : List Frame}
    (h : Leads root (frame :: frames) row) :
    ∃ slot : Nat, frame.slot = slot ∧ frame.item.slots[slot]? = some row := by
  cases h with
  | inward _ _ hslot => exact ⟨_, rfl, hslot⟩

/-- The way out of some frames and one more item. -/
theorem pop_path (inner outer : List Frame) (row : Row) (k : Int) (item : Item) (slot place : Int) :
    (way (inner ++ ⟨row, k, item, slot⟩ :: outer) ++ [place]).pop (2 * inner.length + 2) =
      way outer ++ [k] := by
  have hcount : ((slot :: (way inner ++ [place])).length : Int) = 2 * inner.length + 2 := by
    rw [List.length_cons, List.length_append, length_way, List.length_singleton]
    omega
  have hsplit : way (inner ++ ⟨row, k, item, slot⟩ :: outer) ++ [place] =
      (way outer ++ [k]) ++ (slot :: (way inner ++ [place])) := by
    rw [way_append, way]
    simp
  rw [hsplit, ← hcount, Path.pop_append]

end Focus

/-! ## Places as they are drawn -/

namespace Cursor

open Block (Measured DrawnRow)
open Focus (way Leads)

/-- A fraction is drawn with its parts from the columns `x` and `y` on, the lower one below the upper
one and the line. In the parts items of the widths `ws` and `vs` stand side by side. -/
def DrawnFraction (level : Int) (top bottom : Row) (x : Int) (ws : List Int) (y : Int)
    (vs : List Int) : Prop :=
  ∃ a b c line, DrawnRow level top ws a ∧ DrawnRow level bottom vs b ∧
    Block.ofItem Renderer.ascii level none (.fraction top bottom) = .ok c ∧
    c.glyphs.Perm (a.glyphs.map (·.moved x 0) ++
      line :: b.glyphs.map (·.moved y (a.area.height + 1)))

/-- The first column of a part that is as wide as `n`, beside one that is as wide as `m`. -/
def column (n m : Int) : Int := max (m / 2 - n / 2) 0

/-- A placeholder is so narrow that it is centred like a part without any width. -/
theorem half_shownWidths (ws : List Int) : (Block.shownWidths ws).sum / 2 = ws.sum / 2 := by
  cases ws <;> rfl

/-- How a fraction is drawn at every level, in terms of the widths that are measured for movements. -/
theorem exists_drawnFraction (top bottom : Row) : ∃ ws vs, widths Renderer.ascii top = .ok ws ∧
    widths Renderer.ascii bottom = .ok vs ∧ ∀ level,
      DrawnFraction level top bottom (column ws.sum vs.sum) ws (column vs.sum ws.sum) vs := by
  obtain ⟨ws, hws, htop⟩ := Block.exists_drawnRow top
  obtain ⟨vs, hvs, hbottom⟩ := Block.exists_drawnRow bottom
  refine ⟨ws, vs, hws, hvs, fun level => ?_⟩
  obtain ⟨a, ha, hmeasured⟩ := htop level
  obtain ⟨b, hb, hmeasured'⟩ := hbottom level
  have hglyphs := Block.fraction_glyphs level hmeasured hmeasured'
  rw [half_shownWidths, half_shownWidths] at hglyphs
  refine ⟨a, b, _, _, ha, hb, ?_, hglyphs⟩
  have hparts : Path.intoFraction none = .ok (none, none) := rfl
  rw [Block.ofItem_fraction, hparts, ok_bind, ha.drawn, ok_bind, hb.drawn]
  rfl

/-- By how much the places of two parts are measured further to the right than they are drawn, the
second part less the first one. Only a part of an odd width is measured elsewhere, one column further
left, and only beside a wider one of an even width. -/
def tilt (n m : Int) : Int :=
  if n < m ∧ n % 2 = 1 ∧ m % 2 = 0 then -1
  else if m < n ∧ m % 2 = 1 ∧ n % 2 = 0 then 1
  else 0

theorem boundaries_add (start c : Int) (ws : List Int) :
    boundaries (start + c) ws = (boundaries start ws).map (· + c) := by
  induction ws generalizing start with
  | nil => rfl
  | cons w ws ih => rw [boundaries, boundaries, List.map_cons, Int.add_right_comm, ih]

theorem nearest_map_add (p c : Int) (points : List Int) :
    nearest p (points.map (· + c)) = nearest (p - c) points := by
  have hdistances : (points.map (· + c)).map (fun q => (q - p).natAbs) =
      points.map fun q => (q - (p - c)).natAbs := by
    rw [List.map_map]
    exact List.map_congr_left fun q _ => congrArg Int.natAbs (by dsimp only; omega)
  rw [nearest, hdistances]
  rfl

/-- Places are matched as they are drawn, up to the tilt. -/
theorem matchPlaces_eq {r : Renderer} {source target : Row} {ws vs : List Int}
    (hws : widths r source = .ok ws) (hvs : widths r target = .ok vs) :
    matchPlaces r source target = .ok ((boundaries (column ws.sum vs.sum) ws).map fun p =>
      nearest (p + tilt ws.sum vs.sum) (boundaries (column vs.sum ws.sum) vs)) := by
  -- where the parts begin when they are measured, and how far that is from where they are drawn
  obtain ⟨start, hstart⟩ : ∃ x, x = if 0 < vs.sum - ws.sum then (vs.sum - ws.sum) / 2 else 0 :=
    ⟨_, rfl⟩
  obtain ⟨start', hstart'⟩ : ∃ y, y = if vs.sum - ws.sum < 0 then -(vs.sum - ws.sum) / 2 else 0 :=
    ⟨_, rfl⟩
  have htilt : start - column ws.sum vs.sum - (start' - column vs.sum ws.sum) =
      tilt ws.sum vs.sum := by
    rw [hstart, hstart']
    unfold column tilt
    split <;> split <;> omega
  have hmeasured : matchPlaces r source target =
      .ok ((boundaries start ws).map (nearest · (boundaries start' vs))) := by
    rw [matchPlaces, hws, ok_bind, hvs, ok_bind, hstart, hstart']
    rfl
  have hfrom := boundaries_add (column ws.sum vs.sum) (start - column ws.sum vs.sum) ws
  have hto := boundaries_add (column vs.sum ws.sum) (start' - column vs.sum ws.sum) vs
  rw [add_sub_cancel] at hfrom hto
  rw [hmeasured, hfrom, hto, List.map_map]
  refine congrArg Except.ok (List.map_congr_left fun p _ => ?_)
  show nearest (p + _) _ = _
  rw [nearest_map_add, ← htilt, add_sub_assoc]

/-- A movement starts in the part that its name says. -/
theorem part_eq {top bottom part : Row} {slot : Nat} {d : Direction} (h : d.source = slot)
    (hpart : (Item.fraction top bottom).slots[slot]? = some part) : part = d.here top bottom := by
  cases d with
  | up =>
    obtain rfl : slot = 1 := Int.ofNat_inj.mp h.symm
    cases hpart
    rfl
  | down =>
    obtain rfl : slot = 0 := Int.ofNat_inj.mp h.symm
    cases hpart
    rfl

/-- In a fraction around the cursor, with no nearer one to move in, the cursor goes to the other part.
With the tilt, it lands at the first of the places of that part that are drawn nearest to the place it
came from. -/
theorem vertical_lands {root row top bottom : Row} {f : Focus} {inner outer : List Frame} {k : Int}
    {d : Direction} (h : f.Stands root)
    (hframes : f.frames = inner ++ ⟨row, k, .fraction top bottom, d.source⟩ :: outer)
    (hinner : ∀ frame ∈ inner, ¬ Crosses d frame) :
    ∃ (x y : Int) (ws vs : List Int) (i j : Nat) (p : Int),
      (∀ level, DrawnFraction level top bottom x ws y vs) ∧
      placeOutside inner f.place = i ∧
      (d.here (boundaries x ws) (boundaries y vs))[i]? = some p ∧
      IsNearest (p + tilt (d.here ws vs).sum (d.there ws vs).sum)
        (d.there (boundaries x ws) (boundaries y vs)) j ∧
      vertical Renderer.ascii d root f.path = .ok (some (way outer ++ [k, d.target, (j : Int)])) := by
  obtain ⟨ws, vs, hws, hvs, hdrawn⟩ := exists_drawnFraction top bottom
  -- the columns get names, as going up and going down speak of both of them
  obtain ⟨x, hx⟩ : ∃ x, x = column ws.sum vs.sum := ⟨_, rfl⟩
  obtain ⟨y, hy⟩ : ∃ y, y = column vs.sum ws.sum := ⟨_, rfl⟩
  have hpath := h.ofPath_path
  obtain ⟨frames, last, place, rfl, hleads, hplace⟩ := h.exists_place
  obtain rfl : frames = _ := hframes
  obtain ⟨part, i, hpart, hi, hplace⟩ := hleads.outside hplace
  obtain ⟨slot, hsource, hslot⟩ := hpart.exists_slot
  obtain rfl := part_eq hsource hslot
  have hmatch : matchPlaces Renderer.ascii (d.here top bottom) (d.there top bottom) =
      .ok ((d.here (boundaries x ws) (boundaries y vs)).map fun p =>
        nearest (p + tilt (d.here ws vs).sum (d.there ws vs).sum)
          (d.there (boundaries x ws) (boundaries y vs))) := by
    rw [hx, hy]
    cases d with
    | up => exact matchPlaces_eq hvs hws
    | down => exact matchPlaces_eq hws hvs
  -- the place is in the row that the cursor is in, so it has a boundary
  have hlength : i < (d.here (boundaries x ws) (boundaries y vs)).length := by
    have htop := (widths_meets Renderer.ascii top).of_ok hws
    have hbottom := (widths_meets Renderer.ascii bottom).of_ok hvs
    cases d with
    | up =>
      have hi : i ≤ bottom.length := hi
      show i < (boundaries y vs).length
      rw [length_boundaries]
      omega
    | down =>
      have hi : i ≤ top.length := hi
      show i < (boundaries x ws).length
      rw [length_boundaries]
      omega
  have hne : d.there (boundaries x ws) (boundaries y vs) ≠ [] := by
    cases d with
    | up => exact List.ne_nil_of_length_eq_add_one (length_boundaries x ws)
    | down => exact List.ne_nil_of_length_eq_add_one (length_boundaries y vs)
  have hget := List.getElem?_eq_getElem hlength
  refine ⟨x, y, ws, vs, i, _, _, hx ▸ hy ▸ hdrawn, hplace, hget, isNearest_nearest hne _, ?_⟩
  -- no frame further in is crossed, so the search ends at the fraction and looks its place up
  rw [vertical, hpath, ok_bind, findVertical_append hinner, findVertical_fraction, hmatch, ok_bind,
    hplace, Place.get_natCast (by rw [List.getElem?_map, hget]; rfl), ok_bind, Nat.zero_add,
    Focus.path, Focus.pop_path, Path.push, Path.push, List.append_assoc, List.append_assoc]
  rfl

/-- One over a number of three digits: down from behind the numerator. -/
theorem vertical_lands_three :
    let top : Row := [.digit 1]
    let bottom : Row := [.digit 2, .digit 3, .digit 4]
    let root : Row := [.fraction top bottom]
    let f : Focus := ⟨[⟨root, 0, .fraction top bottom, 0⟩], top, 1⟩
    f.Stands root ∧ (∀ frame ∈ ([] : List Frame), ¬ Crosses .down frame) ∧
      ∃ (x y : Int) (ws vs : List Int) (i j : Nat) (p : Int),
        (∀ level, DrawnFraction level top bottom x ws y vs) ∧ placeOutside [] f.place = i ∧
        (boundaries x ws)[i]? = some p ∧
        IsNearest (p + tilt ws.sum vs.sum) (boundaries y vs) j ∧
        vertical Renderer.ascii .down root f.path = .ok (some [0, 1, (j : Int)]) := by
  intro top bottom root f
  have hleads : Leads root f.frames top := @Leads.inward root [] root top _ 0 0 .start rfl rfl
  have hstands : f.Stands root := ⟨hleads, by decide, by decide⟩
  have hnone : ∀ frame ∈ ([] : List Frame), ¬ Crosses .down frame := List.forall_mem_nil _
  exact ⟨hstands, hnone, vertical_lands hstands rfl hnone⟩

/-- In one over a number of four digits the cursor goes down from before the numerator, which is in the
third column, to the second one. -/
theorem vertical_one_over_four :
    let top : Row := [.digit 1]
    let bottom : Row := [.digit 1, .digit 2, .digit 3, .digit 4]
    (∀ level, DrawnFraction level top bottom 2 [1] 0 [1, 1, 1, 1]) ∧
      (boundaries 2 [1])[0]? = some 2 ∧
      vertical Renderer.ascii .down [.fraction top bottom] [0, 0, 0] = .ok (some [0, 1, 1]) ∧
      ¬ IsNearest 2 (boundaries 0 [1, 1, 1, 1]) 1 := by
  intro top bottom
  have hdrawn : ∀ level, DrawnFraction level top bottom 2 [1] 0 [1, 1, 1, 1] := by
    obtain ⟨ws, vs, hws, hvs, hdrawn⟩ := exists_drawnFraction top bottom
    obtain rfl : [1] = ws := Except.ok.inj hws
    obtain rfl : [1, 1, 1, 1] = vs := Except.ok.inj hvs
    exact hdrawn
  refine ⟨hdrawn, rfl, rfl, ?_⟩
  rintro ⟨q, hq, hle, -⟩
  cases hq
  have := hle 2 (by decide)
  simp at this

end Cursor
end Mathpad
