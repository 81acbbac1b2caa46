import Mathpad.Proofs.Steps

/-!
# Up and down lead from place to place

From a place in the one part of a fraction the cursor goes to a place in the other part: every
place of a row has a place that is matched with it (`Cursor.matchPlaces_meets`), whatever is
drawn. There is no fault on the way, because a row without a cursor always has a drawing
(`Block.exists_ofItem`).
-/
set_option autoImplicit false

namespace Mathpad

/-! ## Rows without a cursor have a drawing -/

namespace Block

variable (r : Renderer)

/-- Without a cursor among them, the blocks of a row are put together whatever they are. -/
theorem exists_ofItemBlocks (level : Int) (bs : List Block) :
    ∃ b, ofItemBlocks r level .nowhere bs = .ok b := by
  cases bs <;> exact ⟨_, rfl⟩

mutual

/-- Only a path that leads nowhere can be at fault, so without one every item has a block. -/
theorem exists_ofItem (level : Int) : ∀ item : Item, ∃ b, ofItem r level none item = .ok b
  | .token t => ⟨_, rfl⟩
  | .sqrt inner | .parentheses inner => by
    obtain ⟨bs, hbs⟩ := exists_ofItems level 0 inner
    obtain ⟨b, hb⟩ := exists_ofItemBlocks r level bs
    simp only [ofItem, Path.intoSlot, Path.target, ok_bind, hbs, hb]
    exact ⟨_, rfl⟩
  | .power exponent => by
    obtain ⟨bs, hbs⟩ := exists_ofItems (level + 1) 0 exponent
    obtain ⟨b, hb⟩ := exists_ofItemBlocks r (level + 1) bs
    simp only [ofItem, Path.intoSlot, Path.target, ok_bind, hbs, hb]
    exact ⟨_, rfl⟩
  | .fraction top bottom => by
    obtain ⟨above, habove⟩ := exists_ofItems level 0 top
    obtain ⟨under, hunder⟩ := exists_ofItems level 0 bottom
    obtain ⟨a, ha⟩ := exists_ofItemBlocks r level above
    obtain ⟨b, hb⟩ := exists_ofItemBlocks r level under
    simp only [ofItem, Path.intoFraction, Path.target, ok_bind, habove, ha, hunder, hb]
    exact ⟨_, rfl⟩
  | .call f args => by
    obtain ⟨bs, hbs⟩ := exists_ofArgs level 0 args
    simp only [ofItem, ok_bind, hbs]
    exact ⟨_, rfl⟩

theorem exists_ofItems (level : Int) (index : Nat) :
    ∀ items : Row, ∃ bs, ofItems r level .nowhere index items = .ok bs
  | [] => ⟨_, rfl⟩
  | item :: items => by
    obtain ⟨b, hb⟩ := exists_ofItem level item
    obtain ⟨bs, hbs⟩ := exists_ofItems level (index + 1) items
    simp only [ofItems, Path.Target.inside, ok_bind, hb, hbs]
    exact ⟨_, rfl⟩

theorem exists_ofArgs (level : Int) (slot : Nat) :
    ∀ args : List Row, ∃ bs, ofArgs r level none slot args = .ok bs
  | [] => ⟨_, rfl⟩
  | arg :: args => by
    obtain ⟨items, hitems⟩ := exists_ofItems level 0 arg
    obtain ⟨b, hb⟩ := exists_ofItemBlocks r level items
    obtain ⟨bs, hbs⟩ := exists_ofArgs level (slot + 1) args
    simp only [ofArgs, Path.intoSlot, Path.target, ok_bind, hitems, hb, hbs]
    exact ⟨_, rfl⟩

end

end Block

/-! ## Up and down -/

namespace Cursor

open Focus (way Leads)

variable {root row : Row} {frames : List Frame}

/-- Every row has the widths of its items, as without a cursor nothing can fail. -/
theorem widths_meets (r : Renderer) (row : Row) :
    Meets (widths r row) (fun ws => ws.length = row.length) fun _ => False := by
  refine (Meets.mapM (Q := fun _ _ => True) fun item _ => ?_).imp fun ws hws =>
    hws.length_eq.symm
  obtain ⟨b, hb⟩ := Block.exists_ofItem r 0 item
  rw [hb]
  trivial

/-- A row has one boundary more than it has items. -/
theorem length_boundaries (start : Int) (ws : List Int) :
    (boundaries start ws).length = ws.length + 1 := by
  induction ws generalizing start with
  | nil => rfl
  | cons w ws ih => rw [boundaries, List.length_cons, ih, List.length_cons]

/-- The point at the index is the first of those that are nearest to `p`. -/
def IsNearest (p : Int) (points : List Int) (j : Nat) : Prop :=
  ∃ q, points[j]? = some q ∧ (∀ u ∈ points, (q - p).natAbs ≤ (u - p).natAbs) ∧
    ∀ i < j, ∀ u, points[i]? = some u → (q - p).natAbs < (u - p).natAbs

/-- The search among points finds the first of the nearest ones. -/
theorem isNearest_nearest {points : List Int} (h : points ≠ []) (p : Int) :
    IsNearest p points (nearest p points) := by
  obtain ⟨ds, hds⟩ : ∃ ds, ds = points.map fun q => (q - p).natAbs := ⟨_, rfl⟩
  have hne : ds ≠ [] := by simpa [hds] using h
  obtain ⟨least, hleast⟩ := Option.ne_none_iff_exists'.mp (mt List.min?_eq_none_iff.mp hne)
  obtain ⟨hmem, hle⟩ := List.min?_eq_some_iff.mp hleast
  have hnearest : nearest p points = ds.idxOf least := by rw [nearest, ← hds, hleast]; rfl
  have hget : ds[ds.idxOf least]? = some least := List.getElem?_idxOf hmem
  rw [hds, List.getElem?_map, Option.map_eq_some_iff] at hget
  obtain ⟨q, hq, hdistance⟩ := hget
  refine ⟨q, by rwa [hnearest, hds], fun u hu => ?_, fun i hi u hu => ?_⟩
  · rw [hdistance]
    exact hle _ (hds ▸ List.mem_map_of_mem hu)
  · -- the least distance does not occur before its first index
    have hdistances : ds[i]? = some (u - p).natAbs := by rw [hds, List.getElem?_map, hu]; rfl
    obtain ⟨hlt, hds⟩ := List.getElem?_eq_some_iff.mp hdistances
    have hbefore := List.not_of_lt_findIdx (hnearest ▸ hi)
    rw [hdistance]
    refine lt_of_le_of_ne (hle _ (List.mem_of_getElem? hdistances)) fun heq => ?_
    simp [hds, heq] at hbefore

/-- The nearest of some points is one of them. -/
theorem nearest_lt {points : List Int} (h : points ≠ []) (p : Int) :
    nearest p points < points.length := by
  obtain ⟨q, hq, -⟩ := isNearest_nearest h p
  exact (List.getElem?_eq_some_iff.mp hq).1

/-- Every place in a row has a place in the other row. -/
theorem matchPlaces_meets (r : Renderer) (source target : Row) :
    Meets (matchPlaces r source target)
      (fun places => places.length = source.length + 1 ∧ ∀ k ∈ places, k ≤ target.length)
      fun _ => False := by
  refine (widths_meets r source).bind fun sourceWidths hsource => ?_
  refine (widths_meets r target).bind fun targetWidths htarget => ?_
  refine ⟨?_, fun k hk => ?_⟩
  · rw [List.length_map, length_boundaries, hsource]
  · obtain ⟨p, -, rfl⟩ := List.mem_map.mp hk
    have hlt : ∀ start, nearest p (boundaries start targetWidths) < targetWidths.length + 1 := by
      intro start
      have hlength := length_boundaries start targetWidths
      have hne : boundaries start targetWidths ≠ [] := List.length_pos_iff.mp (by omega)
      exact hlength ▸ nearest_lt hne p
    rw [← htarget]
    exact Nat.lt_succ_iff.mp (hlt _)

/-- From a place in one row of an item to the matching place in another one. -/
theorem cross_meets (r : Renderer) {inner other : Row} {item : Item} {index slot place : Nat}
    (hplace : place ≤ inner.length) {p : Path} {n : Int}
    (hpop : p.pop n = way frames ++ [(index : Int)]) :
    Meets (do
        let places ← matchPlaces r inner other
        let target ← Place.get places place
        return some (((p.pop n).push slot).push target))
      (fun q => ∃ k : Nat, k ≤ other.length ∧
        q = some (Focus.path ⟨⟨row, index, item, slot⟩ :: frames, other, k⟩))
      fun _ => False := by
  refine (matchPlaces_meets r inner other).bind fun places ⟨hlength, hplaces⟩ => ?_
  have hget : places[place]? = some places[place] := List.getElem?_eq_getElem (by omega)
  rw [Place.get_natCast hget, ok_bind]
  refine ⟨_, hplaces _ (List.mem_of_getElem? hget), ?_⟩
  rw [Focus.path_inward, ← hpop]

/-- In a fraction that the cursor is in, the movement ends in the other part. -/
theorem findVertical_meets (r : Renderer) (d : Direction) (h : Leads root frames row) {place : Nat}
    (hplace : place ≤ row.length) {p tail : Path} (hp : p = way frames ++ tail) {depth : Nat}
    (htail : tail.length = 2 * depth + 1) :
    Meets (findVertical r d p frames place depth) (fun q => ∀ target ∈ q, LeadsTo root target)
      fun _ => False := by
  induction h generalizing place tail depth with
  | start => exact fun _ hq => nomatch hq
  | @inward frames row inner item index slot hleads hitem hslot ih =>
    obtain ⟨hindex, -⟩ := List.getElem?_eq_some_iff.mp hitem
    have hskip : Meets (findVertical r d p frames index (depth + 1))
        (fun q => ∀ target ∈ q, LeadsTo root target) fun _ => False := by
      have houter : p = way frames ++ ([(index : Int), (slot : Int)] ++ tail) := by
        rw [hp, way, List.append_assoc]
      refine ih hindex.le houter ?_
      simp only [List.length_append, List.length_cons, List.length_nil, htail]
      omega
    have hthere : ∀ {other : Row} {k : Nat}, item.slots[k]? = some other →
        ∀ q : Option Path, (∃ i : Nat, i ≤ other.length ∧
          q = some (Focus.path ⟨⟨row, index, item, k⟩ :: frames, other, i⟩)) →
        ∀ target ∈ q, LeadsTo root target := by
      rintro other k hother _ ⟨i, hi, rfl⟩ _ ⟨⟩
      exact ⟨_, (hleads.inward hitem hother).stands hi, rfl⟩
    cases item with
    | fraction top bottom =>
      -- what is behind the index of the fraction is replaced by the way to the other part
      have hpop : p.pop (2 * depth + 2) = way frames ++ [(index : Int)] := by
        have hcount : (((slot : Int) :: tail).length : Int) = 2 * depth + 2 := by
          rw [List.length_cons, htail]
          omega
        have hsplit : p = way frames ++ [(index : Int)] ++ ((slot : Int) :: tail) := by
          rw [hp, way]
          simp
        rw [hsplit, ← hcount, Path.pop_append]
      rw [findVertical]
      by_cases hsource : (slot : Int) = d.source
      · rw [if_pos hsource]
        cases d with
        | up =>
          obtain rfl : slot = 1 := Int.ofNat_inj.mp hsource
          cases hslot
          exact (cross_meets r hplace hpop).imp (hthere (show _ = some top from
            List.getElem?_cons_zero))
        | down =>
          obtain rfl : slot = 0 := Int.ofNat_inj.mp hsource
          cases hslot
          exact (cross_meets r hplace hpop).imp (hthere (show _ = some bottom from
            List.getElem?_cons_succ))
      · rw [if_neg hsource]
        exact hskip
    | token | sqrt | parentheses | power | call => exact hskip

/-- Up or down, the path leads to a place again, or there is no fraction to move in. -/
theorem vertical_meets (r : Renderer) (d : Direction) {f : Focus} (h : f.Stands root) :
    Meets (vertical r d root f.path) (fun q => ∀ target ∈ q, LeadsTo root target)
      fun _ => False := by
  have hpath := h.ofPath_path
  obtain ⟨frames, row, place, rfl, hleads, hplace⟩ := h.exists_place
  rw [vertical, hpath, ok_bind]
  exact findVertical_meets r d hleads hplace rfl rfl

/-- From the upper part of a fraction down into the lower one. -/
theorem vertical_down (r : Renderer) {top bottom : Row} {index place : Nat}
    (h : Leads root frames row) (hitem : row[index]? = some (.fraction top bottom))
    (hplace : place ≤ top.length) :
    Meets (vertical r .down root
        (Focus.path ⟨⟨row, index, .fraction top bottom, (0 : Nat)⟩ :: frames, top, place⟩))
      (fun q => ∃ k : Nat, k ≤ bottom.length ∧ q = some (Focus.path
        ⟨⟨row, index, .fraction top bottom, (1 : Nat)⟩ :: frames, bottom, k⟩))
      fun _ => False := by
  have hslot : (Item.fraction top bottom).slots[0]? = some top := List.getElem?_cons_zero
  have hpop : (Focus.path ⟨⟨row, index, .fraction top bottom, (0 : Nat)⟩ :: frames, top, place⟩).pop
      2 = way frames ++ [(index : Int)] := pop_inward _ _ _ _
  rw [vertical, ((h.inward hitem hslot).stands hplace).ofPath_path, ok_bind, findVertical,
    if_pos (show ((0 : Nat) : Int) = Direction.down.source from rfl)]
  exact cross_meets r hplace hpop

end Cursor
end Mathpad
