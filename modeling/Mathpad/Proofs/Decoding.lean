import Mathpad.Proofs.Encoding

/-!
# What is read was written

The bytes of a row are the only way to write it: whatever a reader takes from the front of
some bytes, however they came about, is what writing the value that was read gives. So the
bytes of one row never begin with those of another, and a row that is cut off anywhere is
not mistaken for a shorter one.

`Bytes.Takes r Q` says of a reader that the bytes it takes and the value it returns are
related by `Q`; it is kept by the ways in which readers are put together.
-/
set_option autoImplicit false

namespace Mathpad

namespace Bytes

/-! ## Readers -/

/-- Where the reader finds a value, this and the bytes that it was found in are related. -/
def Takes {α : Type} (r : Reader α) (Q : Bytes → α → Prop) : Prop :=
  ∀ bytes a rest, r bytes = some (a, rest) → ∃ used, bytes = used ++ rest ∧ Q used a

variable {α β : Type} {r : Reader α} {Q : Bytes → α → Prop} {R : Bytes → β → Prop}

theorem takes_pure {a : α} (h : Q [] a) : Takes (pure a) Q := by
  rintro bytes _ _ ⟨⟩
  exact ⟨[], rfl, h⟩

/-- A reader that fails takes anything, as it never finds a value. -/
theorem takes_failure : Takes (failure : Reader α) Q := by
  rintro bytes a rest h
  exact nomatch h

/-- One reader after the other. -/
theorem Takes.bind {k : α → Reader β} (hr : Takes r Q)
    (hk : ∀ used a, Q used a → Takes (k a) fun more c => R (used ++ more) c) :
    Takes (r >>= k) R := by
  intro bytes c rest h
  obtain ⟨⟨a, left⟩, ha, hc⟩ := Option.bind_eq_some_iff.mp h
  obtain ⟨used, rfl, hused⟩ := hr _ _ _ ha
  obtain ⟨more, rfl, hmore⟩ := hk used a hused _ _ _ hc
  exact ⟨used ++ more, (List.append_assoc _ _ _).symm, hmore⟩

/-- A first byte decides how to go on. -/
theorem takes_next_bind {k : UInt8 → Reader β}
    (hk : ∀ b, Takes (k b) fun more c => R (b :: more) c) : Takes (next >>= k) R := by
  have hnext : Takes next fun used b => used = [b] := by
    intro bytes b rest h
    cases bytes with
    | nil => exact nomatch h
    | cons _ _ => cases h; exact ⟨[b], rfl, rfl⟩
  refine hnext.bind ?_
  rintro _ b rfl
  exact hk b

/-- Values of one kind, one after the other. -/
theorem Takes.many {S : Bytes → List α → Prop} (hr : Takes r Q) (hnil : S [] [])
    (hcons : ∀ used a more as, Q used a → S more as → S (used ++ more) (a :: as)) (n : Nat) :
    Takes (takeMany r n) fun used as => as.length = n ∧ S used as := by
  induction n with
  | zero => exact takes_pure ⟨rfl, hnil⟩
  | succ n ih =>
    refine hr.bind fun used a ha => ih.bind fun more as has => takes_pure ?_
    rw [List.append_nil]
    exact ⟨by simp [has.1], hcons _ _ _ _ ha has.2⟩

/-! ## Counts -/

/-- There is one way to write a count. -/
theorem takes_count : Takes takeCount fun used n => used = ofCount n := by
  intro bytes n rest h
  replace h : countFrom bytes = some (n, rest) := h
  -- each byte of 255 is one step of the count, and the first other byte is its end
  induction bytes generalizing n with
  | nil => cases h
  | cons b bytes ih =>
    rw [countFrom] at h
    by_cases hb : b = 255
    · rw [if_pos hb] at h
      split at h
      · next m left hm =>
        cases h
        obtain ⟨used, rfl, rfl⟩ := ih _ hm
        exact ⟨ofCount (255 + m), by rw [ofCount_add, hb]; rfl, rfl⟩
      · cases h
    · rw [if_neg hb] at h
      cases h
      have hne : b.toNat ≠ 255 := fun h => hb (UInt8.toNat_inj.mp h)
      have hlt : b.toNat < 256 := b.toNat_lt
      refine ⟨[b], rfl, ?_⟩
      show [b] = ofCount b.toNat
      rw [ofCount_of_lt (by omega), UInt8.ofNat_toNat]

end Bytes

open Bytes (Takes takes_pure takes_failure takes_next_bind)

/-! ## Tokens -/

/-- A function is found by no code but its own. -/
theorem NamedFunction.code_of_ofCode? {n : Nat} {f : NamedFunction} (h : ofCode? n = some f) :
    f.code = n := by
  have hcode := List.find?_some h
  exact beq_iff_eq.mp hcode

namespace Token

/-- A byte is the number of a character. -/
theorem toNat_ofNat_byte (b : UInt8) : (Char.ofNat b.toNat).toNat = b.toNat := by
  have hlt : b.toNat < 256 := b.toNat_lt
  have hvalid : b.toNat.isValidChar := Or.inl (by omega)
  rw [Char.ofNat, dif_pos hvalid]
  rfl

/-- A plain code is the one that its token is written with, and no other. -/
theorem encode_of_plainCode {n : Nat} {t : Token} (h : plainCodes.lookup n = some t) :
    t.encode = .ok (UInt8.ofNat n, []) ∧ (Item.token t).EncodableHere := by
  obtain ⟨before, after, hsplit, -⟩ := List.lookup_eq_some_iff.mp h
  have hmem : (n, t) ∈ plainCodes := by simp [hsplit]
  simp only [plainCodes, List.mem_cons, List.not_mem_nil, or_false, Prod.mk.injEq] at hmem
  rcases hmem with ⟨rfl, rfl⟩ | ⟨rfl, rfl⟩ | ⟨rfl, rfl⟩ | ⟨rfl, rfl⟩ | ⟨rfl, rfl⟩ <;>
    exact ⟨rfl, trivial⟩

/-- A token is told by its code, and what it takes besides is written behind that. -/
theorem decode_takes (n : Nat) :
    Takes (decode n) fun used t =>
      t.encode = .ok (UInt8.ofNat n, used) ∧ (Item.token t).EncodableHere := by
  unfold decode
  split
  · next t ht => exact takes_pure (encode_of_plainCode ht)
  by_cases hdigit : zeroCode ≤ n ∧ n < zeroCode + 10
  · rw [if_pos hdigit]
    obtain ⟨k, rfl⟩ := Nat.exists_eq_add_of_le hdigit.1
    have hk : k < 10 := by omega
    have hvalue : ((zeroCode + k : Nat) : Int) - (zeroCode : Nat) = k := by omega
    refine takes_pure ?_
    rw [hvalue]
    refine ⟨?_, by show (0 : Int) ≤ k ∧ (k : Int) ≤ 9; omega⟩
    -- ten codes are left, one for each digit
    interval_cases k <;> rfl
  rw [if_neg hdigit]
  by_cases hvar : n = varCode
  · rw [if_pos hvar, hvar]
    refine takes_next_bind fun b => takes_pure ?_
    have hbyte := toNat_ofNat_byte b
    have hlt : b.toNat < 256 := b.toNat_lt
    refine ⟨?_, ⟨_, by omega, rfl⟩⟩
    rw [encode, nameBytes_singleton (by omega), hbyte, UInt8.ofNat_toNat]
    rfl
  · rw [if_neg hvar]
    exact takes_failure

end Token

/-! ## Items -/

namespace Item

/-- The bytes are those of the item, and everything in it has a form in bytes. -/
def WrittenAs (bytes : Bytes) (item : Item) : Prop :=
  item.toBytes = .ok bytes ∧ item.Everywhere EncodableHere

/-- The bytes are those of the row, and everything in it has a form in bytes. -/
def RowWrittenAs (bytes : Bytes) (row : Row) : Prop :=
  row.toBytes = .ok bytes ∧ row.Everywhere EncodableHere

/-- What takes items takes rows of them. -/
theorem takeRowBy_takes {r : Reader Item} (h : Takes r WrittenAs) :
    Takes (takeRowBy r) RowWrittenAs := by
  have hitems := h.many (S := fun used items => itemsBytes items = .ok used ∧
      Row.Everywhere EncodableHere items) ⟨rfl, Row.everywhere_nil⟩ (by
    rintro used item more items ⟨hitem, hhere⟩ ⟨hitems, hinside⟩
    refine ⟨?_, Row.everywhere_cons.mpr ⟨hhere, hinside⟩⟩
    rw [itemsBytes, hitem, ok_bind, hitems]
    rfl)
  refine Bytes.takes_count.bind ?_
  rintro _ n rfl
  refine fun bytes items rest htake => ?_
  obtain ⟨used, rfl, rfl, hused, hinside⟩ := hitems n bytes items rest htake
  refine ⟨used, rfl, ?_, hinside⟩
  rw [Row.toBytes, hused]
  rfl

/-- What takes rows takes the arguments of a call. -/
theorem takeArgs_takes {r : Reader Row} (h : Takes r RowWrittenAs) (n : Nat) :
    Takes (Bytes.takeMany r n) fun used rows =>
      rows.length = n ∧ argsBytes rows = .ok used ∧ ∀ row ∈ rows, row.Everywhere EncodableHere := by
  refine h.many ⟨rfl, by simp⟩ ?_ n
  rintro used row more rows ⟨hrow, hhere⟩ ⟨hrows, hinside⟩
  obtain ⟨bytes, hbytes, ⟨⟩⟩ := Outcome.bind_eq_ok.mp hrow
  refine ⟨?_, List.forall_mem_cons.mpr ⟨hhere, hinside⟩⟩
  rw [argsBytes, hbytes, ok_bind, hrows]
  rfl

/-- The byte of a token comes from its code. -/
theorem ofNat_or_tokenFlag {b : UInt8} (h : 128 ≤ b.toNat) :
    UInt8.ofNat (b.toNat - 128) ||| tokenFlag = b := by
  have hlt : b.toNat < 256 := b.toNat_lt
  have hcode : (UInt8.ofNat (b.toNat - 128)).toNat = b.toNat - 128 :=
    UInt8.toNat_ofNat_of_lt (show b.toNat - 128 < 256 by omega)
  refine UInt8.toNat_inj.mp ?_
  rw [toNat_or_tokenFlag (by omega), hcode]
  omega

/-- What takes rows takes the items of a kind with one row inside. -/
theorem takes_of_row {r : Reader Row} (h : Takes r RowWrittenAs) {make : Row → Item} {tag : UInt8}
    (here : ∀ row, (make row).EncodableHere) (hslots : ∀ row, (make row).slots = [row])
    (hbytes : ∀ row, (make row).toBytes = do return tag :: counted row (← itemsBytes row)) :
    Takes (do return make (← r)) fun used item => WrittenAs (tag :: used) item := by
  refine h.bind fun used row hused => takes_pure ?_
  obtain ⟨hrow, hinside⟩ := hused
  obtain ⟨bytes, hitems, ⟨⟩⟩ := Outcome.bind_eq_ok.mp hrow
  rw [List.append_nil]
  refine ⟨by rw [hbytes, hitems]; rfl, everywhere_iff.mpr ⟨here row, ?_⟩⟩
  simpa [hslots] using hinside

/-- The bytes of a fraction are its code and the bytes of its parts. -/
theorem written_fraction {top bottom : Row} {above below : Bytes} (ht : RowWrittenAs above top)
    (hb : RowWrittenAs below bottom) : WrittenAs (2 :: (above ++ below)) (fraction top bottom) := by
  obtain ⟨numerator, htop, ⟨⟩⟩ := Outcome.bind_eq_ok.mp ht.1
  obtain ⟨denominator, hbottom, ⟨⟩⟩ := Outcome.bind_eq_ok.mp hb.1
  refine ⟨by rw [toBytes, htop, ok_bind, hbottom]; rfl, everywhere_iff.mpr ⟨trivial, ?_⟩⟩
  simpa [slots] using ⟨ht.2, hb.2⟩

/-- The bytes of a call are its code, those of its function and of the number of arguments, and
theirs. -/
theorem written_call {f : NamedFunction} {n : UInt8} {args : List Row} {used : Bytes}
    (hlength : args.length = n.toNat) (hbytes : argsBytes args = .ok used)
    (h : ∀ row ∈ args, row.Everywhere EncodableHere) :
    WrittenAs (5 :: UInt8.ofNat f.code :: n :: used) (call f args) := by
  have hlt : n.toNat < 256 := n.toNat_lt
  have hcount : Bytes.single args.length = .ok n := by
    rw [Bytes.single, if_pos ⟨by omega, by omega⟩, Int.toNat_natCast, hlength, UInt8.ofNat_toNat]
  refine ⟨by rw [toBytes, hcount, ok_bind, hbytes]; rfl, everywhere_iff.mpr ⟨?_, h⟩⟩
  show args.length ≤ 255
  omega

/-- The reader of an item takes what is written for it, at any depth. -/
theorem takeNested_takes (depth : Nat) : Takes (takeNested depth) WrittenAs := by
  induction depth with
  | zero => exact takes_failure
  | succ depth ih =>
    have hrow := takeRowBy_takes ih
    rw [takeNested]
    refine takes_next_bind fun b => ?_
    by_cases htoken : 128 ≤ b.toNat
    · rw [if_pos htoken]
      refine (Token.decode_takes _).bind fun used t h => takes_pure ?_
      obtain ⟨ht, hhere⟩ := h
      refine ⟨?_, everywhere_iff.mpr ⟨hhere, by simp [slots]⟩⟩
      rw [List.append_nil, toBytes, ht, ok_bind]
      show Except.ok ((UInt8.ofNat (b.toNat - 128) ||| tokenFlag) :: used) = _
      rw [ofNat_or_tokenFlag htoken]
    rw [if_neg htoken]
    -- a byte below the flag is one of five tags, and each tag tells how many rows follow
    have htag : ∀ {n : Nat}, b.toNat = n → b = UInt8.ofNat n := fun h => by
      rw [← h, UInt8.ofNat_toNat]
    dsimp only
    split
    · next hb =>
      rw [htag hb]
      exact takes_of_row hrow (fun _ => trivial) (fun _ => rfl) fun _ => rfl
    · next hb =>
      rw [htag hb]
      refine hrow.bind fun above top ht => hrow.bind fun below bottom hbottom => takes_pure ?_
      rw [List.append_nil]
      exact written_fraction ht hbottom
    · next hb =>
      rw [htag hb]
      exact takes_of_row hrow (fun _ => trivial) (fun _ => rfl) fun _ => rfl
    · next hb =>
      rw [htag hb]
      exact takes_of_row hrow (fun _ => trivial) (fun _ => rfl) fun _ => rfl
    · next hb =>
      rw [htag hb]
      refine takes_next_bind fun code => ?_
      cases hf : NamedFunction.ofCode? code.toNat with
      | none => exact takes_failure
      | some f =>
        refine takes_next_bind fun n => ?_
        refine (takeArgs_takes hrow n.toNat).bind fun used args hargs => takes_pure ?_
        obtain ⟨hlength, hbytes, h⟩ := hargs
        rw [List.append_nil, ← UInt8.ofNat_toNat (x := code), ← NamedFunction.code_of_ofCode? hf]
        exact written_call hlength hbytes h
    · exact takes_failure

end Item

/-! ## Rows -/

namespace Row

/-- The bytes that a row is taken from are its own, and whatever stands behind them is left. -/
theorem take_eq_some_iff {bytes rest : Bytes} {row : Row} :
    take bytes = some (row, rest) ↔ row.Everywhere Item.EncodableHere ∧
      ∃ used, row.toBytes = .ok used ∧ bytes = used ++ rest := by
  constructor
  · intro h
    obtain ⟨used, hused, hbytes, hrow⟩ :=
      Item.takeRowBy_takes (Item.takeNested_takes bytes.length) bytes row rest h
    exact ⟨hrow, used, hbytes, hused⟩
  · rintro ⟨hrow, used, hused, rfl⟩
    obtain ⟨items, hitems, hholds⟩ :=
      (Item.row_holds fun item hi => (hrow item hi).encodes).exists_ok
    rw [toBytes, hitems, ok_bind] at hused
    cases hused
    exact hholds _ (by simp) rest

/-- A row in which everything has a form in bytes has bytes. -/
theorem exists_toBytes {row : Row} (h : row.Everywhere Item.EncodableHere) :
    ∃ bytes, row.toBytes = .ok bytes := by
  obtain ⟨items, hitems, -⟩ := (Item.row_holds fun item hi => (h item hi).encodes).exists_ok
  exact ⟨Item.counted row items, by rw [toBytes, hitems]; rfl⟩

/-- The bytes of a row do not begin with those of another one. -/
theorem toBytes_prefixFree {row other : Row} {bytes used : Bytes}
    (h : row.Everywhere Item.EncodableHere) (ho : other.Everywhere Item.EncodableHere)
    (hrow : row.toBytes = .ok bytes) (hother : other.toBytes = .ok used) (hle : used <+: bytes) :
    other = row ∧ used = bytes := by
  obtain ⟨rest, hrest⟩ := hle
  have hwhole : take bytes = some (row, []) :=
    take_eq_some_iff.mpr ⟨h, bytes, hrow, (List.append_nil _).symm⟩
  rw [take_eq_some_iff.mpr ⟨ho, used, hother, hrest.symm⟩] at hwhole
  cases hwhole
  exact ⟨rfl, by simpa using hrest⟩

/-! ### One form for each row -/

/-- The bytes that a row was read from are those that are written for it, and other bytes give
the same row just if they begin with the same ones: only what follows can differ. -/
theorem take_canonical {bytes rest : Bytes} {row : Row} (h : take bytes = some (row, rest)) :
    ∃ used, row.toBytes = .ok used ∧ bytes = used ++ rest ∧
      ∀ other more, take other = some (row, more) ↔ other = used ++ more := by
  obtain ⟨hrow, used, hused, hbytes⟩ := take_eq_some_iff.mp h
  refine ⟨used, hused, hbytes, fun other more => ?_⟩
  rw [take_eq_some_iff, hused]
  constructor
  · rintro ⟨-, _, ⟨⟩, hother⟩
    exact hother
  · exact fun hother => ⟨hrow, used, rfl, hother⟩

theorem take_canonical_variable :
    take [2, 0x90, 0xe9, 0x86, 7] = some ([.var "é", .digit 1], [7]) ∧
    ∃ used, toBytes [.var "é", .digit 1] = .ok used ∧ [2, 0x90, 0xe9, 0x86, 7] = used ++ [7] ∧
      ∀ other more, take other = some ([.var "é", .digit 1], more) ↔ other = used ++ more := by
  have hname : ∃ c : Char, c.toNat < 256 ∧ "é" = String.singleton c := ⟨'é', by decide, rfl⟩
  have hrow : Row.Everywhere Item.EncodableHere [.var "é", .digit 1] := by
    simp [Item.everywhere_iff, Item.slots, Item.EncodableHere, Item.digit, Item.var, hname]
  have h : take [2, 0x90, 0xe9, 0x86, 7] = some ([.var "é", .digit 1], [7]) :=
    take_eq_some_iff.mpr ⟨hrow, [2, 0x90, 0xe9, 0x86], rfl, rfl⟩
  exact ⟨h, take_canonical h⟩

/-- The bytes of a row are read as that row, whatever is behind them. -/
theorem ofBytes?_append {row : Row} {bytes : Bytes} (hrow : row.Everywhere Item.EncodableHere)
    (hbytes : row.toBytes = .ok bytes) (rest : Bytes) : ofBytes? (bytes ++ rest) = some row := by
  have htake : take (bytes ++ rest) = some (row, rest) :=
    take_eq_some_iff.mpr ⟨hrow, bytes, hbytes, rfl⟩
  rw [ofBytes?, htake, Option.map_some]

/-- Bytes behind a row do not count, so neither of two byte strings for one row need go on
where the other one ends. -/
theorem ofBytes?_trailing :
    ofBytes? [1, 0x86, 1] = some [.digit 1] ∧ ofBytes? [1, 0x86, 2] = some [.digit 1] ∧
      ¬[1, 0x86, 1] <+: ([1, 0x86, 2] : Bytes) ∧ ¬[1, 0x86, 2] <+: ([1, 0x86, 1] : Bytes) := by
  have hrow : Row.Everywhere Item.EncodableHere [.digit 1] := by
    simp [Item.everywhere_iff, Item.slots, Item.EncodableHere, Item.digit]
  have h : ∀ b, ofBytes? [1, 0x86, b] = some [.digit 1] := fun b => ofBytes?_append hrow rfl [b]
  exact ⟨h 1, h 2, by decide, by decide⟩

/-! ### Truncation -/

/-- A row whose bytes are cut off anywhere is not read at all, not even as a shorter one. -/
theorem ofBytes?_truncated (row : Row) (h : row.Everywhere Item.EncodableHere) :
    ∃ bytes, row.toBytes = .ok bytes ∧
      ∀ cut, cut <+: bytes → cut ≠ bytes → ofBytes? cut = none := by
  obtain ⟨bytes, hbytes⟩ := exists_toBytes h
  refine ⟨bytes, hbytes, fun cut hcut hne => ?_⟩
  rw [ofBytes?, Option.map_eq_none_iff]
  refine Option.eq_none_iff_forall_not_mem.mpr ?_
  rintro ⟨other, rest⟩ htake
  -- what was read before the cut would be a row whose bytes the whole begins with
  obtain ⟨hother, used, hused, rfl⟩ := take_eq_some_iff.mp htake
  have hwhole : used = bytes :=
    (toBytes_prefixFree h hother hbytes hused ((List.prefix_append _ _).trans hcut)).2
  have hrest : rest = [] := by
    have hlength := hcut.length_le
    rw [hwhole, List.length_append] at hlength
    exact List.length_eq_zero_iff.mp (by omega)
  exact hne (by rw [hrest, List.append_nil, hwhole])

theorem ofBytes?_truncated_call :
    Row.Everywhere Item.EncodableHere [.var "é", .power [.call .gcd [[.digit 9], []]]] ∧
    ∃ bytes, toBytes [.var "é", .power [.call .gcd [[.digit 9], []]]] = .ok bytes ∧
      ∀ cut, cut <+: bytes → cut ≠ bytes → ofBytes? cut = none := by
  have h : Row.Everywhere Item.EncodableHere
      [.var "é", .power [.call .gcd [[.digit 9], []]]] := by
    have hname : ∃ c : Char, c.toNat < 256 ∧ "é" = String.singleton c := ⟨'é', by decide, rfl⟩
    simp [Item.everywhere_iff, Item.slots, Item.EncodableHere, Item.digit, Item.var, hname]
  exact ⟨h, ofBytes?_truncated _ h⟩

end Row
end Mathpad
