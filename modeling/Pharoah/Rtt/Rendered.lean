import Pharoah.Rtt.Printf

/-!
# What a format stands for

The text that a format and its arguments are meant to give, apart from how `SEGGER_RTT_vprintf` puts it
together, and a reader of numbers.

* `unsignedText`, `intText`   a number in a field: its sign, its digits and what fills the field;
* `Conversion.rendered`       the text of one conversion, and the arguments that are left;
* `rendered`                  that of a format; `none` where the behaviour of the code is undefined;
* `scanInt`                   reads a number: spaces, a sign, digits;
* `scanInt_intText`           **the number that is read is the one that was printed**, whatever the flags,
                              the field width and the precision;
* `length_intText`            the text is as wide as the field, or as the number.
-/

namespace Pharoah
namespace Rtt

open Numeral

/-- the character of the digit `d` -/
def digitChar (d : Nat) : Byte := _aV2C.getD d 0

def spaces (k : Nat) : List Byte := List.replicate k 0x20

theorem spaces_zero : spaces 0 = [] := rfl

/-- the digits of `v`, as many as the precision asks for -/
def digits (b NumDigits v : Nat) : List Byte := (numeral b (max (size b v) NumDigits) v).map digitChar

def unsignedText (b v NumDigits FieldWidth : Nat) (f : FormatFlags) : List Byte :=
  let k := FieldWidth - max (size b v) NumDigits
  if f.LEFT_JUSTIFY then digits b NumDigits v ++ spaces k
  else List.replicate k (if f.PAD_ZERO ∧ NumDigits = 0 then 0x30 else 0x20) ++ digits b NumDigits v

def signText (v : Int) (f : FormatFlags) : List Byte :=
  if v < 0 then [0x2D] else if f.PRINT_SIGN then [0x2B] else []

def intText (b : Nat) (v : Int) (NumDigits FieldWidth : Nat) (f : FormatFlags) : List Byte :=
  let k := FieldWidth - (signText v f).length - max (size b v.natAbs) NumDigits
  if f.LEFT_JUSTIFY then signText v f ++ digits b NumDigits v.natAbs ++ spaces k
  else if f.PAD_ZERO ∧ NumDigits = 0 then
    signText v f ++ (List.replicate k 0x30 ++ digits b NumDigits v.natAbs)
  else spaces k ++ (signText v f ++ digits b NumDigits v.natAbs)

/-! ## what is printed -/

/-- The text of a conversion.  A precision of more than 10 digits, or 8 in hexadecimal, overflows `Digit`;
the least int has no negative. -/
def Conversion.rendered (cv : Conversion) (args : List Arg) : Option (List Byte × List Arg) :=
  let n := cv.precision.getD 0
  let f := cv.flags.foldl FormatFlags.add .zero
  match cv.specifier, args with
  | .c, .int v :: args => some ([UInt8.ofNat v.toNat], args)
  | .d, .int v :: args =>
    if v ≠ BitVec.intMin 32 ∧ n ≤ 10 then some (intText 10 v.toInt n cv.FieldWidth f, args) else none
  | .u, .int v :: args => if n ≤ 10 then some (unsignedText 10 v.toNat n cv.FieldWidth f, args) else none
  | .x, .int v :: args | .X, .int v :: args =>
    if n ≤ 8 then some (unsignedText 16 v.toNat n cv.FieldWidth f, args) else none
  | .s, .str s :: args => if 0 ∈ s then some (s.takeWhile (· ≠ 0), args) else none
  | .p, .int v :: args => some (unsignedText 16 v.toNat 8 8 .zero, args)
  | .percent, args => some ([0x25], args)
  | _, _ => none

def rendered : List Item → List Arg → Option (List Byte)
  | [], _ => some []
  | .char c _ :: items, args => (rendered items args).map (c :: ·)
  | .conversion cv _ _ :: items, args =>
    (cv.rendered args).bind fun out => (rendered items out.2).map (out.1 ++ ·)

/-! ## a reader -/

/-- digits up to the end or a space -/
def scanDigits (b : Nat) : Nat → List Byte → Option Nat
  | a, [] => some a
  | a, c :: s =>
    if c = 0x20 then some a
    else (_aV2C.idxOf? c).bind fun d => if d < b then scanDigits b (a * b + d) s else none

def scanInt (b : Nat) (s : List Byte) : Option Int :=
  match s.dropWhile (· = 0x20) with
  | [] => none
  | c :: s =>
    if c = 0x2D then (scanDigits b 0 s).map fun n => -(n : Int)
    else if c = 0x2B then (scanDigits b 0 s).map fun n => (n : Int)
    else (scanDigits b 0 (c :: s)).map fun n => (n : Int)

section
variable {b : Nat}

theorem digitChar_spec {d : Nat} (hd : d < 16) : digitChar d ≠ 0x20 ∧ digitChar d ≠ 0x2D ∧
    digitChar d ≠ 0x2B ∧ _aV2C.idxOf? (digitChar d) = some d := by
  have hall : ∀ d < 16, digitChar d ≠ 0x20 ∧ digitChar d ≠ 0x2D ∧ digitChar d ≠ 0x2B ∧
    _aV2C.idxOf? (digitChar d) = some d := by decide
  exact hall d hd

theorem scanDigits_digits (hb : b ≤ 16) {ds : List Nat} (hds : ∀ d ∈ ds, d < b) (a k : Nat) :
    scanDigits b a (ds.map digitChar ++ spaces k) = some (valueFrom b a ds) := by
  induction ds generalizing a with
  | nil =>
    cases k with
    | zero => rfl
    | succ k => rfl
  | cons d ds ih =>
    obtain ⟨hd, htl⟩ := List.forall_mem_cons.mp hds
    obtain ⟨hspace, -, -, hidx⟩ := digitChar_spec (Nat.lt_of_lt_of_le hd hb)
    rw [List.map_cons, List.cons_append, scanDigits, if_neg hspace, hidx, Option.bind_some, if_pos hd,
      valueFrom_cons]
    exact ih htl _

/-- the digits of a number, with zeros in front of them -/
theorem zeros_digits (k NumDigits v : Nat) :
    List.replicate k 0x30 ++ digits b NumDigits v =
      (List.replicate k 0 ++ numeral b (max (size b v) NumDigits) v).map digitChar := by
  rw [List.map_append, List.map_replicate]
  rfl

theorem numeral_fits (hb : 1 < b) (NumDigits v : Nat) : v < b ^ max (size b v) NumDigits :=
  lt_of_lt_of_le (lt_pow_size hb v) (Nat.pow_le_pow_right (by omega) (Nat.le_max_left _ _))

theorem scanDigits_zeros (hb : 1 < b) (hb' : b ≤ 16) (k NumDigits v k' : Nat) :
    scanDigits b 0 (List.replicate k 0x30 ++ digits b NumDigits v ++ spaces k') = some v := by
  have hfits := numeral_fits hb NumDigits v
  have hds : ∀ d ∈ List.replicate k 0 ++ numeral b (max (size b v) NumDigits) v, d < b := by
    intro d hd
    obtain hz | hn := List.mem_append.mp hd
    · rw [List.eq_of_mem_replicate hz]
      omega
    · exact lt_of_mem_numeral hfits hn
  rw [zeros_digits, scanDigits_digits hb' hds, valueFrom_zeros]
  exact congrArg some (value_numeral hfits)

/-- The digits begin with a digit. -/
theorem digits_cons (hb : 1 < b) (hb' : b ≤ 16) (k NumDigits v : Nat) :
    ∃ c s, List.replicate k 0x30 ++ digits b NumDigits v = c :: s ∧ c ≠ 0x20 ∧ c ≠ 0x2D ∧ c ≠ 0x2B := by
  have hfits := numeral_fits hb NumDigits v
  rw [zeros_digits]
  cases k with
  | succ k => exact ⟨0x30, _, rfl, by decide, by decide, by decide⟩
  | zero =>
    obtain ⟨n, hn⟩ : ∃ n, max (size b v) NumDigits = n + 1 := by
      refine ⟨max (size b v) NumDigits - 1, ?_⟩
      unfold size
      omega
    rw [hn] at hfits ⊢
    have hd : v / b ^ n < b := lt_of_mem_numeral hfits List.mem_cons_self
    obtain ⟨hspace, hminus, hplus, -⟩ := digitChar_spec (Nat.lt_of_lt_of_le hd hb')
    exact ⟨digitChar (v / b ^ n), _, rfl, hspace, hminus, hplus⟩

theorem dropWhile_spaces (k : Nat) {c : Byte} (hc : c ≠ 0x20) (s : List Byte) :
    (spaces k ++ c :: s).dropWhile (· = 0x20) = c :: s := by
  induction k with
  | zero => exact List.dropWhile_cons_of_neg (by simpa using hc)
  | succ k ih => exact ih

/-- A sign and digits are read as a number; spaces stand before and after. -/
theorem scanInt_signed (hb : 1 < b) (hb' : b ≤ 16) (v : Int) (f : FormatFlags) (k k' k'' NumDigits : Nat) :
    scanInt b (spaces k ++ (signText v f ++ (List.replicate k' 0x30 ++ digits b NumDigits v.natAbs ++ spaces k''))) =
      some v := by
  have hscan := scanDigits_zeros hb hb' k' NumDigits v.natAbs k''
  unfold signText scanInt
  by_cases hneg : v < 0
  · rw [if_pos hneg, List.cons_append, List.nil_append, dropWhile_spaces k (by decide)]
    simp only [if_pos, hscan]
    exact congrArg some (by show -(v.natAbs : Int) = v; omega)
  · rw [if_neg hneg]
    by_cases hplus : f.PRINT_SIGN
    · rw [if_pos hplus, List.cons_append, List.nil_append, dropWhile_spaces k (by decide)]
      have hne : ¬ ((0x2B : Byte) = 0x2D) := by decide
      simp only [if_neg hne, if_pos, hscan]
      exact congrArg some (by show (v.natAbs : Int) = v; omega)
    · obtain ⟨c, s, hcs, hspace, hm, hp⟩ := digits_cons hb hb' k' NumDigits v.natAbs
      rw [hcs] at hscan ⊢
      rw [List.cons_append] at hscan ⊢
      rw [if_neg hplus, List.nil_append, dropWhile_spaces k hspace]
      simp only [if_neg hm, if_neg hp, hscan]
      exact congrArg some (by show (v.natAbs : Int) = v; omega)

/-- The number that was printed is read. -/
theorem scanInt_intText (hb : 1 < b) (hb' : b ≤ 16) (v : Int) (NumDigits FieldWidth : Nat) (f : FormatFlags) :
    scanInt b (intText b v NumDigits FieldWidth f) = some v := by
  have hscan := scanInt_signed hb hb' v f
  unfold intText
  dsimp only
  split
  · have h := hscan 0 0 (FieldWidth - (signText v f).length - max (size b v.natAbs) NumDigits) NumDigits
    rw [List.append_assoc]
    exact h
  · split
    · have h := hscan 0 (FieldWidth - (signText v f).length - max (size b v.natAbs) NumDigits) 0 NumDigits
      rw [spaces_zero, List.nil_append, List.append_nil] at h
      exact h
    · have h := hscan (FieldWidth - (signText v f).length - max (size b v.natAbs) NumDigits) 0 0 NumDigits
      rw [List.replicate_zero, List.nil_append, spaces_zero, List.append_nil] at h
      exact h

theorem length_digits (NumDigits v : Nat) : (digits b NumDigits v).length = max (size b v) NumDigits := by
  rw [digits, List.length_map, length_numeral]

/-- The field is filled, unless the number is wider. -/
theorem length_intText (v : Int) (NumDigits FieldWidth : Nat) (f : FormatFlags) :
    (intText b v NumDigits FieldWidth f).length =
      max FieldWidth ((signText v f).length + max (size b v.natAbs) NumDigits) := by
  unfold intText spaces
  dsimp only
  split
  · rw [List.length_append, List.length_append, List.length_replicate, length_digits]
    omega
  · split <;> rw [List.length_append, List.length_append, List.length_replicate, length_digits] <;> omega

/-- An unsigned number is printed like an int, without `PRINT_SIGN`. -/
theorem unsignedText_eq (v NumDigits FieldWidth : Nat) (f : FormatFlags) :
    unsignedText b v NumDigits FieldWidth f =
      intText b v NumDigits FieldWidth { f with PRINT_SIGN := false } := by
  have hsign : signText (v : Int) { f with PRINT_SIGN := false } = [] := by
    rw [signText, if_neg (by omega), if_neg Bool.false_ne_true]
  unfold unsignedText intText
  simp only [hsign, List.nil_append, List.length_nil, Nat.sub_zero, Int.natAbs_natCast, spaces]
  split
  · rfl
  · split <;> rfl

end

end Rtt
end Pharoah
