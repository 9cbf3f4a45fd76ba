import Pharoah.Lib.Numeral
import Pharoah.Rtt.Buffer

/-!
# Format strings

What `SEGGER_RTT_vprintf` of `rtt/SEGGER_RTT_printf.c` reads between a `%` and the conversion, and the
conversions that are written so.

* `directive s`       the code: flags, field width, precision, length modifiers and the character of the
                      conversion, and the memory behind it; `none` if it reads past the end of `s`;
* `Conversion`        a conversion specification; `text` is how it is written;
* `directive_text`    **it is read back**; with a length modifier one more character is swallowed;
* `Item`              an ordinary character or a conversion; a `format` is a list of them.
-/

namespace Pharoah
namespace Rtt

open Numeral

/-- `FORMAT_FLAG_LEFT_JUSTIFY`, ... -/
inductive Flag
  | LEFT_JUSTIFY
  | PAD_ZERO
  | PRINT_SIGN
  | ALTERNATE
deriving DecidableEq, Repr

/-- the bits of `FormatFlags` -/
structure FormatFlags where
  LEFT_JUSTIFY : Bool
  PAD_ZERO : Bool
  PRINT_SIGN : Bool
  ALTERNATE : Bool
deriving DecidableEq, Repr

def FormatFlags.zero : FormatFlags := ⟨false, false, false, false⟩

def FormatFlags.add (f : FormatFlags) : Flag → FormatFlags
  | .LEFT_JUSTIFY => { f with LEFT_JUSTIFY := true }
  | .PAD_ZERO => { f with PAD_ZERO := true }
  | .PRINT_SIGN => { f with PRINT_SIGN := true }
  | .ALTERNATE => { f with ALTERNATE := true }

/-- `'-'`, `'0'`, `'+'` or `'#'` -/
def flagOf (c : Byte) : Option Flag :=
  if c = 0x2D then some .LEFT_JUSTIFY
  else if c = 0x30 then some .PAD_ZERO
  else if c = 0x2B then some .PRINT_SIGN
  else if c = 0x23 then some .ALTERNATE
  else none

/-! ## the code -/

/-- the loop over the flags -/
def filterFlags : FormatFlags → List Byte → Option (FormatFlags × List Byte)
  | _, [] => none
  | f, c :: s =>
    match flagOf c with
    | some flag => filterFlags (f.add flag) s
    | none => some (f, c :: s)

/-- The loop over the digits of a field width or a precision, of type `unsigned`. -/
def filterNumber : Nat → List Byte → Option (Nat × List Byte)
  | _, [] => none
  | n, c :: s =>
    if c < 0x30 ∨ c > 0x39 then some (n, c :: s)
    else filterNumber ((n * 10 + (c - 0x30).toNat) % 2 ^ 32) s

/-- the precision behind a `'.'` -/
def filterPrecision : List Byte → Option (Nat × List Byte)
  | [] => none
  | c :: s => if c = 0x2E then filterNumber 0 s else some (0, c :: s)

/-- The loop over the length modifiers, with `c` read at `s`.  It reads the first of them twice, and then
the pointer is behind the character that is read, not at it. -/
def filterLength : Byte → List Byte → Option (Byte × List Byte)
  | c, [] => if c = 0x6C ∨ c = 0x68 then none else some (c, [])
  | c, c' :: s => if c = 0x6C ∨ c = 0x68 then filterLength c' s else some (c, c' :: s)

/-- the flags, the field width, the precision and the character of a conversion -/
structure Directive where
  FormatFlags : FormatFlags
  FieldWidth : Nat
  NumDigits : Nat
  c : Byte
deriving DecidableEq, Repr

/-- What is read behind a `%`, and the memory behind the conversion. -/
def directive (s : List Byte) : Option (Directive × List Byte) := do
  let (f, s) ← filterFlags .zero s
  let (w, s) ← filterNumber 0 s
  let (n, s) ← filterPrecision s
  let c ← s.head?
  let (c, s) ← filterLength c s
  return (⟨f, w, n, c⟩, s.drop 1)

/-! ## conversion specifications -/

def Flag.char : Flag → Byte
  | .LEFT_JUSTIFY => 0x2D
  | .PAD_ZERO => 0x30
  | .PRINT_SIGN => 0x2B
  | .ALTERNATE => 0x23

/-- `'l'` or `'h'` -/
inductive Modifier
  | l
  | h
deriving DecidableEq, Repr

def Modifier.char : Modifier → Byte
  | .l => 0x6C
  | .h => 0x68

/-- the conversions that the code knows -/
inductive Specifier
  | c
  | d
  | u
  | x
  | X
  | s
  | p
  | percent
deriving DecidableEq, Repr

def Specifier.char : Specifier → Byte
  | .c => 0x63
  | .d => 0x64
  | .u => 0x75
  | .x => 0x78
  | .X => 0x58
  | .s => 0x73
  | .p => 0x70
  | .percent => 0x25

/-- the digit of `d < 10` -/
def digit (d : Nat) : Byte := UInt8.ofNat (0x30 + d)

/-- A number is written in decimal, and 0 is left out. -/
def number (n : Nat) : List Byte := if n = 0 then [] else (numeral 10 (size 10 n) n).map digit

/-- A conversion specification, whose numbers are of type `unsigned`. -/
structure Conversion where
  flags : List Flag
  FieldWidth : Nat
  precision : Option Nat
  modifiers : List Modifier
  specifier : Specifier
  width_lt : FieldWidth < 2 ^ 32
  precision_lt : precision.getD 0 < 2 ^ 32
deriving DecidableEq

namespace Conversion

/-- how it is written, behind the `%` -/
def text (cv : Conversion) : List Byte :=
  cv.flags.map Flag.char ++ (number cv.FieldWidth ++ (cv.precision.elim [] (fun n => 0x2E :: number n) ++
    (cv.modifiers.map Modifier.char ++ [cv.specifier.char])))

def directive (cv : Conversion) : Directive :=
  ⟨cv.flags.foldl FormatFlags.add .zero, cv.FieldWidth, cv.precision.getD 0, cv.specifier.char⟩

end Conversion

/-! ## what is read back -/

/-- The memory goes on, with a character that is none of `p`. -/
def Stops (p : Byte → Prop) (s : List Byte) : Prop := ∃ c t, s = c :: t ∧ ¬ p c

theorem flagOf_char (flag : Flag) : flagOf flag.char = some flag := by
  cases flag <;> rfl

theorem filterFlags_text (f : FormatFlags) (flags : List Flag) {s : List Byte}
    (hs : Stops (fun c => (flagOf c).isSome) s) :
    filterFlags f (flags.map Flag.char ++ s) = some (flags.foldl FormatFlags.add f, s) := by
  induction flags generalizing f with
  | nil =>
    obtain ⟨c, t, rfl, hc⟩ := hs
    have hnone : flagOf c = none := by simpa using hc
    simp only [List.map_nil, List.nil_append, filterFlags, hnone, List.foldl_nil]
  | cons flag flags ih =>
    simp only [List.map_cons, List.cons_append, filterFlags, flagOf_char, List.foldl_cons]
    exact ih _

/-- the digits are the characters from 0x30 to 0x39 -/
theorem digit_spec {d : Nat} (hd : d < 10) :
    ¬ (digit d < 0x30 ∨ digit d > 0x39) ∧ (digit d - 0x30).toNat = d := by
  have hall : ∀ d < 10, ¬ (digit d < 0x30 ∨ digit d > 0x39) ∧ (digit d - 0x30).toNat = d := by decide
  exact hall d hd

def IsDigit (c : Byte) : Prop := ¬ (c < 0x30 ∨ c > 0x39)

theorem filterNumber_digits {ds : List Nat} (hds : ∀ d ∈ ds, d < 10) {a : Nat} (hlt : valueFrom 10 a ds < 2 ^ 32)
    {s : List Byte} (hs : Stops IsDigit s) :
    filterNumber a (ds.map digit ++ s) = some (valueFrom 10 a ds, s) := by
  induction ds generalizing a with
  | nil =>
    obtain ⟨c, t, rfl, hc⟩ := hs
    simp only [List.map_nil, List.nil_append, filterNumber, if_pos (not_not.mp hc)]
    rfl
  | cons d ds ih =>
    obtain ⟨hd, htl⟩ := List.forall_mem_cons.mp hds
    obtain ⟨hdig, hval⟩ := digit_spec hd
    rw [valueFrom_cons] at hlt ⊢
    have hle : a * 10 + d ≤ valueFrom 10 (a * 10 + d) ds := le_valueFrom (by decide) _ _
    rw [List.map_cons, List.cons_append, filterNumber, if_neg hdig, hval, Nat.mod_eq_of_lt (by omega)]
    exact ih htl hlt

theorem filterNumber_number {n : Nat} (hn : n < 2 ^ 32) {s : List Byte} (hs : Stops IsDigit s) :
    filterNumber 0 (number n ++ s) = some (n, s) := by
  have hlt := lt_pow_size (b := 10) (by decide) n
  have hval : valueFrom 10 0 (numeral 10 (size 10 n) n) = n := value_numeral hlt
  unfold number
  by_cases hz : n = 0
  · obtain ⟨c, t, rfl, hc⟩ := hs
    rw [if_pos hz, List.nil_append, filterNumber, if_pos (not_not.mp hc), hz]
  · rw [if_neg hz, filterNumber_digits (fun d => lt_of_mem_numeral hlt) (by omega) hs, hval]

theorem filterLength_modifiers (modifiers : List Modifier) (spec : Specifier) (c' : Byte) (s : List Byte) :
    filterLength c' (modifiers.map Modifier.char ++ spec.char :: s) =
      if c' = 0x6C ∨ c' = 0x68 then some (spec.char, s)
      else some (c', modifiers.map Modifier.char ++ spec.char :: s) := by
  have hspec : ¬ (spec.char = 0x6C ∨ spec.char = 0x68) := by cases spec <;> decide
  induction modifiers generalizing c' with
  | nil =>
    rw [List.map_nil, List.nil_append, filterLength]
    split
    · cases s with
      | nil => rw [filterLength, if_neg hspec]
      | cons c s => rw [filterLength, if_neg hspec]
    · rfl
  | cons m modifiers ih =>
    have hm : m.char = 0x6C ∨ m.char = 0x68 := by cases m <;> decide
    rw [List.map_cons, List.cons_append, filterLength, ih, if_pos hm]

/-- what follows the field width, or the precision, begins with no digit -/
theorem stops_tail {p : Byte → Prop} (modifiers : List Modifier) (spec : Specifier) (s : List Byte)
    (hm : ∀ m : Modifier, ¬ p m.char) (hs : ∀ spec : Specifier, ¬ p spec.char) :
    Stops p (modifiers.map Modifier.char ++ spec.char :: s) := by
  cases modifiers with
  | nil => exact ⟨spec.char, s, rfl, hs spec⟩
  | cons m modifiers => exact ⟨m.char, _, rfl, hm m⟩

/-- A digit above 0 is no flag. -/
theorem flagOf_digit {d : Nat} (hpos : 0 < d) (hd : d < 10) : ¬ (flagOf (digit d)).isSome := by
  have hall : ∀ d < 10, 0 < d → ¬ (flagOf (digit d)).isSome := by decide
  exact hall d hd hpos

theorem stops_number {p : Byte → Prop} {n : Nat} {s : List Byte} (hn : ∀ d, 0 < d → d < 10 → ¬ p (digit d))
    (hs : Stops p s) : Stops p (number n ++ s) := by
  unfold number
  by_cases hz : n = 0
  · rw [if_pos hz, List.nil_append]
    exact hs
  · obtain ⟨d, ds, hds, hpos⟩ := head_numeral (b := 10) (by decide) (Nat.pos_of_ne_zero hz)
    have hlt := lt_of_mem_numeral (lt_pow_size (b := 10) (by decide) n) (hds ▸ List.mem_cons_self)
    rw [if_neg hz, hds]
    exact ⟨digit d, _, rfl, hn d hpos hlt⟩

section
variable (cv : Conversion) (rest : List Byte)

/-- what stands behind the precision, and behind the field width -/
theorem stops_behind {p : Byte → Prop} (hdot : ¬ p 0x2E) (hm : ∀ m : Modifier, ¬ p m.char)
    (hs : ∀ spec : Specifier, ¬ p spec.char) :
    Stops p (cv.modifiers.map Modifier.char ++ cv.specifier.char :: rest) ∧
      Stops p (cv.precision.elim [] (fun n => 0x2E :: number n) ++
        (cv.modifiers.map Modifier.char ++ cv.specifier.char :: rest)) := by
  have htail := stops_tail cv.modifiers cv.specifier rest hm hs
  refine ⟨htail, ?_⟩
  cases cv.precision with
  | none => exact htail
  | some n => exact ⟨0x2E, _, rfl, hdot⟩

theorem filterPrecision_text :
    filterPrecision (cv.precision.elim [] (fun n => 0x2E :: number n) ++
        (cv.modifiers.map Modifier.char ++ cv.specifier.char :: rest)) =
      some (cv.precision.getD 0, cv.modifiers.map Modifier.char ++ cv.specifier.char :: rest) := by
  have hlt := cv.precision_lt
  cases hp : cv.precision with
  | none =>
    obtain ⟨c, t, htail, hc⟩ := stops_tail (p := (· = 0x2E)) cv.modifiers cv.specifier rest
      (fun m => by cases m <;> decide) (fun spec => by cases spec <;> decide)
    show filterPrecision (cv.modifiers.map Modifier.char ++ cv.specifier.char :: rest) = _
    rw [htail, filterPrecision, if_neg hc]
    rfl
  | some n =>
    rw [hp] at hlt
    have hstop := (stops_behind cv rest (p := IsDigit) (by unfold IsDigit; decide)
      (fun m => by cases m <;> (unfold IsDigit; decide)) (fun spec => by cases spec <;> (unfold IsDigit; decide))).1
    show filterPrecision (0x2E :: number n ++ _) = _
    rw [List.cons_append, filterPrecision, if_pos rfl]
    exact filterNumber_number hlt hstop

/-- A conversion specification is read back, and the pointer is behind it; behind a length modifier it is
one character further. -/
theorem directive_text :
    directive (cv.text ++ rest) =
      some (cv.directive, if cv.modifiers = [] then rest else rest.drop 1) := by
  have hflag := stops_behind cv rest (p := fun c => (flagOf c).isSome) (by decide)
    (fun m => by cases m <;> decide) (fun spec => by cases spec <;> decide)
  have hdigit := stops_behind cv rest (p := IsDigit) (by unfold IsDigit; decide)
    (fun m => by cases m <;> (unfold IsDigit; decide)) (fun spec => by cases spec <;> (unfold IsDigit; decide))
  have htext : cv.text ++ rest = cv.flags.map Flag.char ++ (number cv.FieldWidth ++
      (cv.precision.elim [] (fun n => 0x2E :: number n) ++
        (cv.modifiers.map Modifier.char ++ cv.specifier.char :: rest))) := by
    simp only [Conversion.text, List.append_assoc, List.cons_append, List.nil_append]
  have hflags := filterFlags_text .zero cv.flags
    (stops_number (n := cv.FieldWidth) (fun d => flagOf_digit) hflag.2)
  have hwidth := filterNumber_number cv.width_lt hdigit.2
  have hlength := filterLength_modifiers cv.modifiers cv.specifier
  unfold directive
  simp only [htext, hflags, hwidth, filterPrecision_text, Option.bind_eq_bind, Option.bind_some]
  cases hm : cv.modifiers with
  | nil =>
    have hspec : ¬ (cv.specifier.char = 0x6C ∨ cv.specifier.char = 0x68) := by
      cases cv.specifier <;> decide
    have hlast := hlength cv.specifier.char rest
    rw [hm, if_neg hspec] at hlast
    simp only [List.map_nil, List.nil_append] at hlast ⊢
    rw [List.head?_cons, Option.bind_some, hlast]
    rfl
  | cons m ms =>
    have hmod : m.char = 0x6C ∨ m.char = 0x68 := by cases m <;> decide
    have hlast := hlength m.char rest
    rw [hm, if_pos hmod] at hlast
    rw [List.map_cons, List.cons_append] at hlast ⊢
    rw [List.head?_cons, Option.bind_some, hlast]
    rfl

end

/-! ## formats -/

/-- An ordinary character, or a conversion with the character that is swallowed behind length modifiers. -/
inductive Item
  | char (c : Byte) (ordinary : c ≠ 0 ∧ c ≠ 0x25)
  | conversion (cv : Conversion) (swallowed : List Byte)
      (one : swallowed.length = if cv.modifiers = [] then 0 else 1)

def Item.text : Item → List Byte
  | .char c _ => [c]
  | .conversion cv swallowed _ => 0x25 :: cv.text ++ swallowed

/-- the memory of a format string -/
def format (items : List Item) : List Byte := items.flatMap Item.text ++ [0]

/-- the pointer is behind the item -/
theorem directive_item {cv : Conversion} {swallowed : List Byte}
    (one : swallowed.length = if cv.modifiers = [] then 0 else 1) (rest : List Byte) :
    directive (cv.text ++ (swallowed ++ rest)) = some (cv.directive, rest) := by
  rw [directive_text]
  by_cases hm : cv.modifiers = []
  · rw [if_pos hm] at one ⊢
    rw [List.eq_nil_of_length_eq_zero one, List.nil_append]
  · rw [if_neg hm] at one ⊢
    rw [List.drop_left' one]

end Rtt
end Pharoah
