import Mathlib.Tactic.IntervalCases
import Mathpad.Binary.Item
import Mathpad.Proofs.Everywhere
import Mathpad.Proofs.Outcome

/-!
# Rows in bytes and back

What was written in bytes is read back, and reading stops right behind it, whatever comes
next. `Bytes.Holds r bytes a` says this of one reader: given `bytes` and anything behind
them, it returns `a` and leaves the rest alone. It is kept by the ways in which readers
are put together, so that each kind of item is one short chain of rules.

The reader of an item is told how many items may be around each other. The number of bytes
always is enough: an item takes a byte more than what is inside of it.
-/
set_option autoImplicit false

namespace Mathpad

namespace Bytes

/-! ## Readers -/

/-- The reader finds the value in the bytes, and leaves what is behind them. -/
def Holds {α : Type} (r : Reader α) (bytes : Bytes) (a : α) : Prop :=
  ∀ rest, r (bytes ++ rest) = some (a, rest)

variable {α β : Type} {r : Reader α} {bytes more : Bytes} {a : α} {c : β}

theorem holds_pure (a : α) : Holds (pure a) [] a := fun _ => rfl

/-- One reader after the other. -/
theorem Holds.bind {k : α → Reader β} (hr : Holds r bytes a) (hk : Holds (k a) more c) :
    Holds (r >>= k) (bytes ++ more) c := by
  intro rest
  show (r (bytes ++ more ++ rest)).bind (fun p => k p.1 p.2) = some (c, rest)
  rw [List.append_assoc, hr, Option.bind_some, hk]

/-- The last reader decides what is returned. -/
theorem Holds.returns {k : α → Reader β} (hr : Holds r bytes a) (hk : Holds (k a) [] c) :
    Holds (r >>= k) bytes c := by
  rw [← List.append_nil bytes]
  exact hr.bind hk

theorem holds_next (b : UInt8) : Holds next [b] b := fun _ => rfl

/-- A first byte decides how to go on. -/
theorem Holds.next_bind {k : UInt8 → Reader β} {b : UInt8} (hk : Holds (k b) more c) :
    Holds (next >>= k) (b :: more) c :=
  (holds_next b).bind hk

/-! ## Counts -/

theorem ofCount_of_lt {n : Nat} (h : n < 255) : ofCount n = [UInt8.ofNat n] := by
  rw [ofCount, Nat.div_eq_of_lt h, Nat.mod_eq_of_lt h]
  rfl

theorem ofCount_add (n : Nat) : ofCount (255 + n) = 255 :: ofCount n := by
  rw [ofCount, ofCount, Nat.add_div_left n (by omega), Nat.add_mod_left, List.replicate_succ,
    List.cons_append]

/-- A count is read back, also at the multiples of 255. -/
theorem holds_ofCount (n : Nat) : Holds takeCount (ofCount n) n := by
  intro rest
  -- each byte of 255 accounts for as much of the count
  induction n using Nat.strong_induction_on with
  | _ n ih =>
    by_cases h : n < 255
    · have hbyte : (UInt8.ofNat n).toNat = n := UInt8.toNat_ofNat_of_lt (show n < 256 by omega)
      have hend : UInt8.ofNat n ≠ 255 := by
        intro hb
        have hsame : n = 255 := by rw [← hbyte, hb]; rfl
        omega
      show countFrom (ofCount n ++ rest) = some (n, rest)
      rw [ofCount_of_lt h, List.singleton_append, countFrom, if_neg hend, hbyte]
    · obtain ⟨m, rfl⟩ := Nat.exists_eq_add_of_le (Nat.le_of_not_lt h)
      have htail : countFrom (ofCount m ++ rest) = some (m, rest) := ih m (by omega)
      show countFrom (ofCount (255 + m) ++ rest) = some (255 + m, rest)
      rw [ofCount_add, List.cons_append, countFrom, if_pos rfl, htail]

end Bytes

open Bytes (Holds)

/-! ## Tokens -/

namespace Item

/-- An item that has a form in bytes, whatever is inside of it: a digit is one of the ten, the name
of a variable is one character that fits a byte, and the number of arguments fits a byte too. -/
def EncodableHere : Item → Prop
  | token (.digit value) => 0 ≤ value ∧ value ≤ 9
  | token (.var name) => ∃ c : Char, c.toNat < 256 ∧ name = String.singleton c
  | call _ args => args.length ≤ 255
  | _ => True

end Item

namespace Token

theorem nameBytes_singleton {c : Char} (h : c.toNat < 256) :
    nameBytes (String.singleton c) = .ok [UInt8.ofNat c.toNat] := by
  show (String.singleton c).toList.mapM _ = _
  rw [String.toList_singleton, List.mapM_cons, if_pos h]
  rfl

/-- The first byte of a token leaves room for the flag, and tells how to read the rest. -/
theorem encode_holds {t : Token} (h : (Item.token t).EncodableHere) :
    Meets t.encode
      (fun p => p.1.toNat < 128 ∧ Holds (decode p.1.toNat) p.2 t) fun _ => False := by
  cases t with
  | add | subtract | multiply | divide | point => exact ⟨by decide, Bytes.holds_pure _⟩
  | digit value =>
    obtain ⟨h0, h9⟩ := h
    obtain ⟨n, rfl⟩ := Int.eq_ofNat_of_zero_le h0
    have hn : n ≤ 9 := by omega
    interval_cases n <;> exact ⟨by decide, Bytes.holds_pure _⟩
  | var name =>
    obtain ⟨c, hc, rfl⟩ := h
    have hbyte : (UInt8.ofNat c.toNat).toNat = c.toNat := UInt8.toNat_ofNat_of_lt hc
    rw [encode, nameBytes_singleton hc]
    refine ⟨show varCode < 128 by decide, Bytes.Holds.next_bind ?_⟩
    rw [hbyte, Char.ofNat_toNat]
    exact Bytes.holds_pure _

end Token

/-! ## Items -/

namespace Item

/-- Items that are read back one by one are read back as a row. -/
theorem counted_holds {depth : Nat} {items : Row} {bytes : Bytes}
    (h : Holds (Bytes.takeMany (takeNested depth) items.length) bytes items) :
    Holds (takeRowBy (takeNested depth)) (counted items bytes) items :=
  (Bytes.holds_ofCount items.length).bind h

/-- An item has bytes, and they are enough to tell it by, at any depth from their number on. -/
def Encodes (item : Item) : Prop :=
  Meets item.toBytes
    (fun bytes => ∀ depth, bytes.length ≤ depth → Holds (takeNested depth) bytes item)
    fun _ => False

/-- The items of a row, one after the other. -/
theorem itemsBytes_holds {items : Row} (h : ∀ item ∈ items, item.Encodes) :
    Meets (itemsBytes items)
      (fun bytes => ∀ depth, bytes.length ≤ depth →
        Holds (Bytes.takeMany (takeNested depth) items.length) bytes items)
      fun _ => False := by
  induction items with
  | nil => exact fun _ _ => Bytes.holds_pure _
  | cons item items ih =>
    rw [itemsBytes]
    refine (h item (by simp)).bind fun bytes hitem => ?_
    refine (ih fun i hi => h i (by simp [hi])).bind fun more hitems => ?_
    intro depth hdepth
    rw [List.length_append] at hdepth
    exact (hitem depth (by omega)).bind ((hitems depth (by omega)).returns (Bytes.holds_pure _))

/-- A row, with its count in front, takes at least one byte more than its items. -/
theorem row_holds {row : Row} (h : ∀ item ∈ row, item.Encodes) :
    Meets (itemsBytes row)
      (fun bytes => ∀ depth, (counted row bytes).length ≤ depth →
        Holds (takeRowBy (takeNested depth)) (counted row bytes) row)
      fun _ => False := by
  refine (itemsBytes_holds h).imp fun bytes hbytes => ?_
  intro depth hdepth
  rw [counted, List.length_append] at hdepth
  exact counted_holds (hbytes depth (by omega))

/-- The rows of a call, one after the other. -/
theorem argsBytes_holds {rows : List Row} (h : ∀ row ∈ rows, ∀ item ∈ row, item.Encodes) :
    Meets (argsBytes rows)
      (fun bytes => ∀ depth, bytes.length ≤ depth →
        Holds (Bytes.takeMany (takeRowBy (takeNested depth)) rows.length) bytes rows)
      fun _ => False := by
  induction rows with
  | nil => exact fun _ _ => Bytes.holds_pure _
  | cons row rows ih =>
    rw [argsBytes]
    refine (row_holds (h row (by simp))).bind fun bytes hrow => ?_
    refine (ih fun r hr => h r (by simp [hr])).bind fun more hrows => ?_
    intro depth hdepth
    rw [List.length_append] at hdepth
    exact (hrow depth (by omega)).bind ((hrows depth (by omega)).returns (Bytes.holds_pure _))

/-- Behind its first byte, an item is read with one level less to go. -/
theorem holds_takeNested {tag : UInt8} {bytes : Bytes} {item : Item}
    (h : ∀ depth, bytes.length ≤ depth → Holds (takeNested (depth + 1)) (tag :: bytes) item) :
    ∀ depth, (tag :: bytes).length ≤ depth → Holds (takeNested depth) (tag :: bytes) item := by
  intro depth hdepth
  rw [List.length_cons] at hdepth
  obtain ⟨k, rfl⟩ : ∃ k, depth = k + 1 := ⟨depth - 1, by omega⟩
  exact h k (by omega)

/-- An item with one row inside. -/
theorem encodes_of_row {item : Item} {tag : UInt8} {row : Row} (h : ∀ i ∈ row, i.Encodes)
    (hbytes : item.toBytes = do return tag :: counted row (← itemsBytes row))
    (htake : ∀ depth bytes, Holds (takeRowBy (takeNested depth)) bytes row →
      Holds (takeNested (depth + 1)) (tag :: bytes) item) : item.Encodes := by
  rw [Encodes, hbytes]
  refine (row_holds h).bind fun bytes hrow => ?_
  exact holds_takeNested fun depth hdepth => htake depth _ (hrow depth hdepth)

/-- The byte of a token is told from a tag by its flag, and gives its code back without it. -/
theorem toNat_or_tokenFlag {b : UInt8} (h : b.toNat < 128) :
    (b ||| tokenFlag).toNat = b.toNat + 128 := by
  rw [UInt8.toNat_or, show tokenFlag.toNat = 2 ^ 7 * 1 from rfl, Nat.or_comm,
    ← Nat.two_pow_add_eq_or_of_lt h]
  omega

/-- A token is told by its bytes. -/
theorem encodes_token {t : Token} (h : (token t).EncodableHere) : (token t).Encodes := by
  rw [Encodes, toBytes]
  refine (Token.encode_holds h).bind fun p hp => ?_
  obtain ⟨hcode, hdecode⟩ := hp
  refine holds_takeNested fun depth _ => ?_
  rw [takeNested]
  refine Bytes.Holds.next_bind ?_
  rw [toNat_or_tokenFlag hcode, if_pos (Nat.le_add_left 128 _), Nat.add_sub_cancel]
  exact hdecode.returns (Bytes.holds_pure _)

/-- A fraction is told by the bytes of its parts, which follow each other. -/
theorem encodes_fraction {top bottom : Row} (ht : ∀ i ∈ top, i.Encodes)
    (hb : ∀ i ∈ bottom, i.Encodes) : (fraction top bottom).Encodes := by
  rw [Encodes, toBytes]
  refine (row_holds ht).bind fun numerator htop => ?_
  refine (row_holds hb).bind fun denominator hbottom => ?_
  refine holds_takeNested fun depth hdepth => ?_
  rw [List.length_append] at hdepth
  exact Bytes.Holds.next_bind
    ((htop depth (by omega)).bind ((hbottom depth (by omega)).returns (Bytes.holds_pure _)))

/-- A call is told by its function, the number of its arguments and their bytes. -/
theorem encodes_call {f : NamedFunction} {args : List Row} (hcount : args.length ≤ 255)
    (h : ∀ row ∈ args, ∀ i ∈ row, i.Encodes) : (call f args).Encodes := by
  have hsingle : Bytes.single args.length = .ok (UInt8.ofNat args.length) :=
    if_pos ⟨by omega, by omega⟩
  have hlength : (UInt8.ofNat args.length).toNat = args.length :=
    UInt8.toNat_ofNat_of_lt (show args.length < 256 by omega)
  have hcode : NamedFunction.ofCode? (UInt8.ofNat f.code).toNat = some f := by
    cases f <;> rfl
  rw [Encodes, toBytes, hsingle, ok_bind]
  refine (argsBytes_holds h).bind fun bytes hargs => ?_
  refine holds_takeNested fun depth hdepth => ?_
  simp only [List.length_cons] at hdepth
  -- the tag, the function and the number of arguments come before the arguments
  rw [takeNested]
  refine Bytes.Holds.next_bind (Bytes.Holds.next_bind ?_)
  simp only [hcode]
  refine Bytes.Holds.next_bind ?_
  rw [hlength]
  exact (hargs depth (by omega)).returns (Bytes.holds_pure _)

/-- Every item that has a form in bytes is read back from it. -/
theorem Everywhere.encodes {item : Item} (h : item.Everywhere EncodableHere) :
    item.Encodes := by
  induction h with
  | @intro item here _ ih =>
    cases item with
    | token t => exact encodes_token here
    | sqrt inner =>
      exact encodes_of_row (ih inner (by simp [slots])) rfl fun _ _ hrow =>
        Bytes.Holds.next_bind (hrow.returns (Bytes.holds_pure _))
    | fraction top bottom =>
      exact encodes_fraction (ih top (by simp [slots])) (ih bottom (by simp [slots]))
    | parentheses inner =>
      exact encodes_of_row (ih inner (by simp [slots])) rfl fun _ _ hrow =>
        Bytes.Holds.next_bind (hrow.returns (Bytes.holds_pure _))
    | power exponent =>
      exact encodes_of_row (ih exponent (by simp [slots])) rfl fun _ _ hrow =>
        Bytes.Holds.next_bind (hrow.returns (Bytes.holds_pure _))
    | call f args => exact encodes_call here ih

end Item

/-! ## Rows -/

namespace Row

/-- A row whose items have a form in bytes is written, and reading gives it back whatever bytes
follow: exactly the bytes of the row are used up. -/
theorem take_toBytes (row : Row) (h : row.Everywhere Item.EncodableHere) :
    ∃ bytes, row.toBytes = .ok bytes ∧
      ∀ rest, take (bytes ++ rest) = some (row, rest) ∧ ofBytes? (bytes ++ rest) = some row := by
  have hrow := Item.row_holds fun item hi => (h item hi).encodes
  obtain ⟨bytes, hbytes, hholds⟩ := hrow.exists_ok
  have htake : ∀ rest, take (Item.counted row bytes ++ rest) = some (row, rest) := by
    intro rest
    exact hholds _ (by simp) rest
  refine ⟨Item.counted row bytes, ?_, fun rest => ⟨htake rest, ?_⟩⟩
  · rw [toBytes, hbytes]
    rfl
  · rw [ofBytes?, htake, Option.map_some]

theorem take_toBytes_power :
    Row.Everywhere Item.EncodableHere [.var "é", .power [.call .sine [[.digit 9], []]]] ∧
    ∃ bytes, toBytes [.var "é", .power [.call .sine [[.digit 9], []]]] = .ok bytes ∧
      ∀ rest,
        take (bytes ++ rest) = some ([.var "é", .power [.call .sine [[.digit 9], []]]], rest) ∧
        ofBytes? (bytes ++ rest) = some [.var "é", .power [.call .sine [[.digit 9], []]]] := by
  have h : Row.Everywhere Item.EncodableHere
      [.var "é", .power [.call .sine [[.digit 9], []]]] := by
    have hname : ∃ c : Char, c.toNat < 256 ∧ "é" = String.singleton c := ⟨'é', by decide, rfl⟩
    simp [Item.everywhere_iff, Item.slots, Item.EncodableHere, Item.digit, Item.var, hname]
  exact ⟨h, take_toBytes _ h⟩

end Row
end Mathpad
