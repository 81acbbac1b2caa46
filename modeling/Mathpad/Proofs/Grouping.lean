import Mathpad.Proofs.Notations

/-!
# Rows of blocks in groups

In a row, a superscript is put to the block on its left before anything else is put together, so
a row falls into groups, each a block with its superscripts (`Block.groups`). The groups of two
rows one after the other are those of both (`groups_append`), and putting groups side by side is
associative (`lineUp_append`). So a row may be read from its parts: `Composed bs b` says that the
blocks `bs` in a row look like `b`, and there is one lemma for each way in which an expression
of the grammar goes on.

A power is where the two ways of reading differ: in the row its exponent is put to the last group,
in the expression to everything before it. They agree because no group of a number, a unit or a
power stands lower than its last one (`Based`).
-/
set_option autoImplicit false

namespace Mathpad.Block

variable {a b c : Block} {bs cs : List Block}

/-- A solid block that is put beside others without anything special. -/
structure Ordinary (b : Block) : Prop extends b.Solid where
  special : b.special = {}

theorem Ordinary.superscript_eq (h : b.Ordinary) : b.special.superscript = false := by
  rw [h.special]

theorem Ordinary.binds_eq (h : b.Ordinary) : b.special.binds = false := by
  rw [h.special]

theorem Alike.ordinary (h : a.Alike b) (ha : a.Ordinary) : b.Ordinary :=
  ⟨h.solid ha.toSolid, h.special ▸ ha.special⟩

/-- Two blocks side by side are nothing special, whatever they are. -/
theorem beside_special (a b : Block) : (a.beside b).special = {} := by
  unfold Block.beside alongBaseline
  split <;> rfl

theorem Ordinary.beside (ha : a.Ordinary) (hb : b.Solid) : (a.beside b).Ordinary where
  toSolid := ha.toSnug.beside hb
  special := beside_special a b

/-- A row of blocks is nothing special. -/
theorem row_special (bs : List Block) : (row bs).special = {} := by
  rw [row_eq]
  generalize (bs.foldl attach []).reverse = groups
  induction groups using List.reverseRecOn with
  | nil => rfl
  | append_singleton groups last =>
    rw [List.foldl_append]
    exact beside_special _ _

/-! ## Groups -/

/-- The blocks of a row, each with its superscripts. -/
def groups (bs : List Block) : List Block := (bs.foldl attach []).reverse

theorem attach_append (hne : bs ≠ []) (cs : List Block) (b : Block) :
    attach (bs ++ cs) b = attach bs b ++ cs := by
  obtain ⟨left, more, rfl⟩ := List.exists_cons_of_ne_nil hne
  cases hbinds : b.special.binds with
  | true => rw [List.cons_append, attach_cons_of_binds hbinds, attach_cons_of_binds hbinds]; rfl
  | false => rw [attach_of_not_binds hbinds, attach_of_not_binds hbinds]; rfl

theorem attach_ne_nil (bs : List Block) (b : Block) : attach bs b ≠ [] := by
  cases hbinds : b.special.binds with
  | true =>
    cases bs with
    | nil => simp [attach]
    | cons left more => simp [attach_cons_of_binds hbinds]
  | false => simp [attach_of_not_binds hbinds]

/-- Gathering blocks changes the last of the groups that are there, and no other. -/
theorem foldl_attach_append (hne : cs ≠ []) (ds : List Block) :
    bs.foldl attach (cs ++ ds) = bs.foldl attach cs ++ ds := by
  induction bs generalizing cs with
  | nil => rfl
  | cons b bs ih =>
    rw [List.foldl_cons, List.foldl_cons, attach_append hne, ih (attach_ne_nil cs b)]

@[simp] theorem groups_singleton (b : Block) : groups [b] = [b] := rfl

/-- The groups of a row that goes on with a block that does not bind. -/
theorem groups_append (bs : List Block) (h : b.special.binds = false) (cs : List Block) :
    groups (bs ++ b :: cs) = groups bs ++ groups (b :: cs) := by
  rw [groups, List.foldl_append, List.foldl_cons, attach_of_not_binds h, ← List.singleton_append,
    foldl_attach_append (by simp), List.reverse_append, groups, groups, List.foldl_cons,
    attach_of_not_binds h]

/-- A superscript joins the last group. -/
theorem groups_append_superscript (h : groups bs = cs ++ [c]) (hb : b.special.binds = true) :
    groups (bs ++ [b]) = cs ++ [c.beside b] := by
  have hlast : bs.foldl attach [] = c :: cs.reverse := by
    rw [← List.reverse_reverse (bs.foldl attach []), ← groups, h, List.reverse_append,
      List.reverse_singleton, List.singleton_append]
  rw [groups, List.foldl_append, hlast, List.foldl_cons, attach_cons_of_binds hb, List.foldl_nil,
    List.reverse_cons, List.reverse_reverse]

/-! ## Groups side by side -/

/-- Blocks side by side; there have to be some. -/
def lineUp : List Block → Block
  | [] => empty
  | b :: bs => bs.foldl beside b

/-- An ordinary block beside nothing looks like itself. -/
theorem empty_beside_alike (h : b.Ordinary) : (empty.beside b).Alike b where
  glyphs := empty_beside_glyphs h.toSolid
  baseline := (beside_alike h.superscript_eq).baseline.trans (max_eq_right h.baseline)
  area := by
    rw [(empty_snug.beside h.toSolid).area, h.area, extent_perm (empty_beside_glyphs h.toSolid)]
  special := (beside_alike h.superscript_eq).special.trans h.special.symm

/-- Ordinary blocks in a line make an ordinary block. -/
theorem lineUp_ordinary (hne : bs ≠ []) (h : ∀ b ∈ bs, b.Ordinary) : (lineUp bs).Ordinary := by
  obtain ⟨first, more, rfl⟩ := List.exists_cons_of_ne_nil hne
  obtain ⟨hfirst, hmore⟩ := List.forall_mem_cons.mp h
  show (more.foldl beside first).Ordinary
  clear h hne
  induction more generalizing first with
  | nil => exact hfirst
  | cons b bs ih =>
    obtain ⟨hb, hbs⟩ := List.forall_mem_cons.mp hmore
    exact ih _ (hfirst.beside hb.toSolid) hbs

/-- What stands on the left may be put there in the end. -/
theorem foldl_beside_assoc (ha : a.Ordinary) (hb : b.Ordinary) (h : ∀ c ∈ cs, c.Ordinary) :
    (cs.foldl beside (a.beside b)).Alike (a.beside (cs.foldl beside b)) := by
  induction cs generalizing b with
  | nil => exact .refl _
  | cons c cs ih =>
    obtain ⟨hc, hcs⟩ := List.forall_mem_cons.mp h
    -- the first three are put together the other way, and the rest goes on from there
    have hassoc := beside_assoc ha.toSolid hb.toSolid hb.superscript_eq hc.superscript_eq
    exact (foldl_beside_alike (forall₂_refl cs) hassoc).trans (ih (hb.beside hc.toSolid) hcs)

/-- Two lines of blocks, one behind the other, look like the two side by side. -/
theorem lineUp_append (hbs : bs ≠ []) (hcs : cs ≠ []) (h : ∀ b ∈ bs, b.Ordinary)
    (h' : ∀ c ∈ cs, c.Ordinary) : (lineUp (bs ++ cs)).Alike ((lineUp bs).beside (lineUp cs)) := by
  have hfirst := lineUp_ordinary hbs h
  obtain ⟨b, bs, rfl⟩ := List.exists_cons_of_ne_nil hbs
  obtain ⟨c, cs, rfl⟩ := List.exists_cons_of_ne_nil hcs
  obtain ⟨hc, hcs⟩ := List.forall_mem_cons.mp h'
  show ((bs ++ c :: cs).foldl beside b).Alike _
  rw [List.foldl_append]
  exact foldl_beside_assoc hfirst hc hcs

/-! ## Rows read from their parts -/

/-- The blocks in a row look like one block. -/
structure Composed (bs : List Block) (b : Block) : Prop where
  ne_nil : groups bs ≠ []
  head : ∀ c ∈ bs.head?, c.special.binds = false
  each : ∀ c ∈ groups bs, c.Ordinary
  look : (lineUp (groups bs)).Alike b

namespace Composed

theorem ordinary (h : Composed bs b) : b.Ordinary :=
  h.look.ordinary (lineUp_ordinary h.ne_nil h.each)

/-- A row is composed to everything that looks like one such block. -/
theorem of_alike (h : Composed bs a) (hb : a.Alike b) : Composed bs b :=
  ⟨h.ne_nil, h.head, h.each, h.look.trans hb⟩

/-- A row of blocks looks like the block that it is composed to. -/
theorem row (h : Composed bs b) : (row bs).Alike b := by
  refine Alike.trans ?_ h.look
  show ((Block.groups bs).foldl beside empty).Alike _
  obtain ⟨first, more, hgroups⟩ := List.exists_cons_of_ne_nil h.ne_nil
  have hfirst := h.each first (by simp [hgroups])
  rw [hgroups, List.foldl_cons]
  exact foldl_beside_alike (forall₂_refl more) (empty_beside_alike hfirst)

/-- An ordinary block by itself is a row. -/
theorem single (h : b.Ordinary) : Composed [b] b where
  ne_nil := by simp
  head := by simpa using h.binds_eq
  each := by simpa using h
  look := .refl b

/-- Two rows that are composed to blocks are composed, one behind the other, to those side by side.
-/
theorem append (ha : Composed bs a) (hb : Composed cs b) : Composed (bs ++ cs) (a.beside b) := by
  have hcs : cs ≠ [] := fun hnil => hb.ne_nil (by rw [hnil]; rfl)
  obtain ⟨c, cs, rfl⟩ := List.exists_cons_of_ne_nil hcs
  have hgroups := groups_append bs (hb.head c rfl) cs
  refine ⟨?_, ?_, ?_, ?_⟩
  · rw [hgroups]
    simp [ha.ne_nil]
  · cases bs with
    | nil => exact absurd rfl ha.ne_nil
    | cons first more => exact ha.head
  · rw [hgroups]
    exact List.forall_mem_append.mpr ⟨ha.each, hb.each⟩
  · rw [hgroups]
    exact (lineUp_append ha.ne_nil hb.ne_nil ha.each hb.each).trans (ha.look.beside hb.look)

end Composed

/-- No group is on a lower baseline than the last one. -/
def Based (bs : List Block) : Prop :=
  ∃ more last, groups bs = more ++ [last] ∧ ∀ b ∈ more, b.baseline ≤ last.baseline

theorem Based.single (b : Block) : Based [b] := ⟨[], b, rfl, by simp⟩

theorem groups_eq (h : ∀ b ∈ bs, b.special.binds = false) : groups bs = bs := by
  have hfold : ∀ ds, bs.foldl attach ds = bs.reverse ++ ds := by
    induction bs with
    | nil => exact fun _ => rfl
    | cons b bs ih =>
      obtain ⟨hb, hbs⟩ := List.forall_mem_cons.mp h
      intro ds
      rw [List.foldl_cons, attach_of_not_binds hb, ih hbs, List.reverse_cons, List.append_assoc,
        List.singleton_append]
  rw [groups, hfold, List.append_nil, List.reverse_reverse]

/-- Blocks on the same baseline, none of which binds. -/
theorem Composed.level (hne : bs ≠ []) (h : ∀ b ∈ bs, b.Ordinary) (hbaseline : ∀ b ∈ bs, b.baseline = 0) :
    Composed bs (lineUp bs) ∧ Based bs := by
  have hgroups := groups_eq fun b hb => (h b hb).binds_eq
  refine ⟨⟨by rwa [hgroups], ?_, by rwa [hgroups], by rw [hgroups]; exact .refl _⟩, ?_⟩
  · intro c hc
    exact (h c (List.mem_of_mem_head? hc)).binds_eq
  · obtain ⟨more, last, rfl⟩ := List.eq_nil_or_concat' bs |>.resolve_left hne
    refine ⟨more, last, hgroups, fun b hb => ?_⟩
    rw [hbaseline b (by simp [hb]), hbaseline last (by simp)]

/-- A line of blocks is on no lower baseline than the lowest of them. -/
theorem lineUp_baseline_le (hne : bs ≠ []) (h : ∀ b ∈ bs, b.Ordinary) {n : Int}
    (hlow : ∀ b ∈ bs, b.baseline ≤ n) : (lineUp bs).baseline ≤ n := by
  obtain ⟨first, more, rfl⟩ := List.exists_cons_of_ne_nil hne
  obtain ⟨-, hmore⟩ := List.forall_mem_cons.mp h
  obtain ⟨hfirst, hbelow⟩ := List.forall_mem_cons.mp hlow
  show (more.foldl beside first).baseline ≤ n
  clear h hne hlow
  induction more generalizing first with
  | nil => exact hfirst
  | cons b bs ih =>
    obtain ⟨hb, hbs⟩ := List.forall_mem_cons.mp hmore
    obtain ⟨hle, hrest⟩ := List.forall_mem_cons.mp hbelow
    refine ih _ hbs ?_ hrest
    rw [(beside_alike hb.superscript_eq).baseline]
    exact max_le hfirst hle

/-- An exponent that is put to the last group is one of the whole. -/
theorem Composed.raised (h : Composed bs a) (hbased : Based bs) (hb : b.Solid) :
    Composed (bs ++ [superscript b]) (raised a b) ∧ Based (bs ++ [superscript b]) := by
  obtain ⟨more, last, hgroups, hlow⟩ := hbased
  have hgroups' := groups_append_superscript (b := superscript b) hgroups rfl
  have hordinary := h.each
  rw [hgroups, List.forall_mem_append, List.forall_mem_singleton] at hordinary
  obtain ⟨hmore, hlast⟩ := hordinary
  have hgroup := hlast.beside hb.superscript
  -- the exponent passes the groups in front of the last one, since none of them is lower
  have hlook : (lineUp (more ++ [last.beside (superscript b)])).Alike
      ((lineUp (more ++ [last])).beside (superscript b)) := by
    by_cases hnil : more = []
    · rw [hnil]
      exact .refl _
    have hbase := lineUp_baseline_le hnil hmore hlow
    have hfront := lineUp_ordinary hnil hmore
    have hbefore := lineUp_append hnil (List.cons_ne_nil _ []) hmore
      (List.forall_mem_singleton.mpr hlast)
    have hafter := lineUp_append hnil (List.cons_ne_nil _ []) hmore
      (List.forall_mem_singleton.mpr hgroup)
    have hraised := beside_raised hfront.toSolid hlast.toSolid hb hlast.superscript_eq hbase
    exact hafter.trans (hraised.symm.trans (hbefore.symm.beside (.refl _)))
  refine ⟨⟨by simp [hgroups'], ?_, ?_, ?_⟩, more, _, hgroups', fun c hc => ?_⟩
  · cases bs with
    | nil => exact absurd rfl h.ne_nil
    | cons first more => exact h.head
  · rw [hgroups', List.forall_mem_append, List.forall_mem_singleton]
    exact ⟨hmore, hgroup⟩
  · rw [hgroups', raised_eq h.ordinary.toSolid hb]
    exact hlook.trans (Alike.beside (hgroups ▸ h.look) (.refl _))
  -- with the exponent the last group is still the lowest, by the height of the exponent
  · have hheight := hb.height_nonneg
    have hle := hlow c hc
    rw [beside_superscript hb.superscript.area rfl]
    show c.baseline ≤ last.baseline + b.area.height
    omega

/-- Operands with their operator between them. -/
theorem Composed.joined {level : Int} {op : BinaryOp} (ha : Composed bs a) (hb : Composed cs b) :
    Composed (bs ++ ofGlyph Renderer.ascii level (operatorGlyph op) :: cs)
      (joined Renderer.ascii level op a b) := by
  have hop : (ofGlyph Renderer.ascii level (operatorGlyph op)).Ordinary :=
    ⟨solid_kept.mark level (by cases op <;> exact trivial), rfl⟩
  have hrow := (ha.append (Composed.single hop)).append hb
  rw [List.append_assoc, List.singleton_append] at hrow
  rwa [joined_eq ha.ordinary.toSolid hop.toSolid]

end Mathpad.Block
