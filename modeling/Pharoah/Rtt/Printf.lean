import Pharoah.Rtt.Control
import Pharoah.Rtt.Format

/-!
# Formatted output

The code of `rtt/SEGGER_RTT_printf.c`.  What C leaves undefined is a fault: memory that is not there, an
argument of another type or none, a division by zero, a signed overflow.

* `SEGGER_RTT_PRINTF_DESC`, `Printing`   the descriptor of a call, and the target;
* `_StoreChar`         a character goes into the buffer of the descriptor; a full one is written;
* `_PrintUnsigned`, `_PrintInt`          numbers;
* `convert`            the switch over the specifiers;
* `SEGGER_RTT_vprintf`                   the loop over the format, and what remains in the buffer.
-/

namespace Pharoah
namespace Rtt

def SEGGER_RTT_PRINTF_BUFFER_SIZE : Nat := 128

structure SEGGER_RTT_PRINTF_DESC where
  pBuffer : List Byte
  BufferSize : Nat
  Cnt : Nat
  ReturnValue : Int
  RTTBufferIndex : Nat
deriving DecidableEq, Repr

/-- a call of `SEGGER_RTT_vprintf`: its descriptor, and the target -/
structure Printing where
  desc : SEGGER_RTT_PRINTF_DESC
  target : Target

abbrev Printer := EStateM Stop Printing

/-! ## characters -/

def SEGGER_RTT_PRINTF_DESC.put (d : SEGGER_RTT_PRINTF_DESC) (c : Byte) : SEGGER_RTT_PRINTF_DESC :=
  { d with pBuffer := d.pBuffer.set d.Cnt c, Cnt := d.Cnt + 1, ReturnValue := d.ReturnValue + 1 }

/-- the end of `_StoreChar`: a full buffer is written -/
def writeFull : Printer Unit := fun p =>
  if p.desc.Cnt = p.desc.BufferSize then
    match SEGGER_RTT_Write p.desc.RTTBufferIndex (p.desc.pBuffer.take p.desc.Cnt) p.target with
    | .error e t => .error e { p with target := t }
    | .ok n t =>
      if n ≠ p.desc.Cnt then .ok () ⟨{ p.desc with ReturnValue := -1 }, t⟩
      else .ok () ⟨{ p.desc with Cnt := 0 }, t⟩
  else .ok () p

def _StoreChar (c : Byte) : Printer Unit := fun p =>
  if p.desc.Cnt + 1 ≤ p.desc.BufferSize then
    if p.desc.ReturnValue + 1 < 2 ^ 31 then writeFull { p with desc := p.desc.put c } else .error .fault p
  else writeFull p

/-- `_StoreChar`, and then a `return` or a `break` if `ReturnValue` is below 0 -/
def store (c : Byte) : Printer (Option Unit) := do
  _StoreChar c
  let p ← get
  if p.desc.ReturnValue < 0 then return none else return some ()

/-- what follows, unless the function has returned -/
def andThen {α : Type} (m : Printer (Option α)) (k : α → Printer Unit) : Printer Unit := do
  match ← m with
  | none => return ()
  | some a => k a

/-! ## numbers -/

/-- the loop that counts the digits of `Number` -/
def countDigits (Base : Nat) : Nat → Nat → Nat
  | 0, _ => 1
  | fuel + 1, Number => if Number ≥ Base then countDigits Base fuel (Number / Base) + 1 else 1

/-- the width of a number: its digits, or its precision -/
def fieldOf (Base v NumDigits : Nat) : Nat :=
  if NumDigits > countDigits Base 32 v then NumDigits else countDigits Base 32 v

/-- `while ((FieldWidth != 0) && (Width < FieldWidth--))`; the field width that is left -/
def pad (c : Byte) (Width : Nat) : Nat → Printer (Option Nat)
  | 0 => return some 0
  | FieldWidth + 1 =>
    if Width < FieldWidth + 1 then do
      match ← store c with
      | none => return none
      | some _ => pad c Width FieldWidth
    else return some FieldWidth

/-- `while (((v / Digit) >= Base) | (NumDigits-- > 1))`, in arithmetic modulo 2^32.  The bases are even, so
after 32 turns `Digit` is 0. -/
def digitOf (Base v : Nat) : Nat → Nat → Int → Option Nat
  | 0, _, _ => none
  | fuel + 1, Digit, NumDigits =>
    if Digit = 0 ∨ NumDigits = -2 ^ 31 then none
    else if v / Digit ≥ Base ∨ NumDigits > 1 then digitOf Base v fuel (Digit * Base % 2 ^ 32) (NumDigits - 1)
    else some Digit

def _aV2C : List Byte :=
  [0x30, 0x31, 0x32, 0x33, 0x34, 0x35, 0x36, 0x37, 0x38, 0x39, 0x41, 0x42, 0x43, 0x44, 0x45, 0x46]

/-- the loop that prints the digits; `Digit` is 0 after 32 turns -/
def putDigits (Base : Nat) : Nat → Nat → Nat → Printer Unit
  | 0, _, _ => throw .fault
  | fuel + 1, v, Digit =>
    match _aV2C[v / Digit]? with
    | none => throw .fault
    | some c => andThen (store c) fun _ =>
      if Digit / Base = 0 then return () else putDigits Base fuel (v - v / Digit * Digit) (Digit / Base)

def _PrintUnsigned (v Base : Nat) (NumDigits : Int) (FieldWidth : Nat) (f : FormatFlags) : Printer Unit :=
  let Width := fieldOf Base v (unsigned NumDigits)
  let c := if f.PAD_ZERO ∧ NumDigits = 0 then 0x30 else 0x20
  andThen (if f.LEFT_JUSTIFY then pure (some FieldWidth) else pad c Width FieldWidth) fun FieldWidth =>
    match digitOf Base v 33 1 NumDigits with
    | none => throw .fault
    | some Digit => do
      putDigits Base 32 v Digit
      if f.LEFT_JUSTIFY then andThen (pad 0x20 Width FieldWidth) fun _ => return ()

def _PrintInt (v : BitVec 32) (Base NumDigits FieldWidth : Nat) (f : FormatFlags) : Printer Unit :=
  if v = BitVec.intMin 32 then throw .fault
  else
    let Number := v.toInt.natAbs
    let Width := fieldOf Base Number NumDigits
    let FieldWidth := if FieldWidth > 0 ∧ (v.toInt < 0 ∨ f.PRINT_SIGN) then FieldWidth - 1 else FieldWidth
    andThen (if (¬ f.PAD_ZERO ∨ NumDigits ≠ 0) ∧ ¬ f.LEFT_JUSTIFY then pad 0x20 Width FieldWidth
        else pure (some FieldWidth)) fun FieldWidth =>
      andThen (if v.toInt < 0 then store 0x2D else if f.PRINT_SIGN then store 0x2B else pure (some ())) fun _ =>
        andThen (if f.PAD_ZERO ∧ ¬ f.LEFT_JUSTIFY ∧ NumDigits = 0 then pad 0x30 Width FieldWidth
            else pure (some FieldWidth)) fun FieldWidth =>
          _PrintUnsigned Number Base (int NumDigits) FieldWidth f

/-! ## the format -/

/-- an argument behind the format: an `int`, or the memory at a pointer to a string -/
inductive Arg
  | int (v : BitVec 32)
  | str (s : List Byte)
deriving DecidableEq

/-- `va_arg` of an `int` -/
def vaInt (k : BitVec 32 → Printer Unit) : List Arg → Printer (List Arg)
  | .int v :: args => k v >>= fun _ => pure args
  | _ => throw .fault

/-- the loop of `%s` -/
def putString : List Byte → Printer Unit
  | [] => throw .fault
  | c :: s => if c = 0 then return () else andThen (store c) fun _ => putString s

/-- `va_arg` of a string -/
def vaString : List Arg → Printer (List Arg)
  | .str s :: args => putString s >>= fun _ => pure args
  | _ => throw .fault

/-- the switch over the specifiers; the arguments that are left -/
def convert (d : Directive) (args : List Arg) : Printer (List Arg) :=
  if d.c = 0x63 then vaInt (fun v => _StoreChar (UInt8.ofNat v.toNat)) args
  else if d.c = 0x64 then vaInt (fun v => _PrintInt v 10 d.NumDigits d.FieldWidth d.FormatFlags) args
  else if d.c = 0x75 then
    vaInt (fun v => _PrintUnsigned v.toNat 10 (int d.NumDigits) d.FieldWidth d.FormatFlags) args
  else if d.c = 0x78 ∨ d.c = 0x58 then
    vaInt (fun v => _PrintUnsigned v.toNat 16 (int d.NumDigits) d.FieldWidth d.FormatFlags) args
  else if d.c = 0x73 then vaString args
  else if d.c = 0x70 then vaInt (fun v => _PrintUnsigned v.toNat 16 8 8 .zero) args
  else if d.c = 0x25 then _StoreChar 0x25 >>= fun _ => pure args
  else pure args

/-- The loop over the format, which reads one character or more in each turn. -/
def vprintfLoop : Nat → List Byte → List Arg → Printer Unit
  | 0, _, _ => throw .fault
  | _ + 1, [], _ => throw .fault
  | fuel + 1, c :: sFormat, args =>
    if c = 0 then return ()
    else if c = 0x25 then
      match directive sFormat with
      | none => throw .fault
      | some (d, sFormat) => do
        let args ← convert d args
        let p ← get
        if p.desc.ReturnValue < 0 then return () else vprintfLoop fuel sFormat args
    else andThen (store c) fun _ => vprintfLoop fuel sFormat args

/-- What remains is written, and counted once more. -/
def writeRest (d : SEGGER_RTT_PRINTF_DESC) : Code Int :=
  if d.ReturnValue > 0 then do
    if d.Cnt ≠ 0 then
      let _ ← SEGGER_RTT_Write d.RTTBufferIndex (d.pBuffer.take d.Cnt)
    if d.ReturnValue + d.Cnt < 2 ^ 31 then return d.ReturnValue + d.Cnt else throw .fault
  else return d.ReturnValue

def SEGGER_RTT_vprintf (BufferIndex : Nat) (sFormat : List Byte) (args : List Arg) : Code Int := fun t =>
  match vprintfLoop (sFormat.length + 1) sFormat args
      ⟨⟨List.replicate SEGGER_RTT_PRINTF_BUFFER_SIZE 0, SEGGER_RTT_PRINTF_BUFFER_SIZE, 0, 0, BufferIndex⟩, t⟩ with
  | .error e p => .error e p.target
  | .ok _ p => writeRest p.desc p.target

/-- `SEGGER_RTT_printf` -/
def SEGGER_RTT_printf (BufferIndex : Nat) (sFormat : List Byte) (args : List Arg) : Code Int :=
  SEGGER_RTT_vprintf BufferIndex sFormat args

end Rtt
end Pharoah
