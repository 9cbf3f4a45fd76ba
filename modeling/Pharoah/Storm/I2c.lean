import Mathlib.Logic.Function.Basic

/-!
# I2C operations

`storm::i2c` in `test/libstorm.h` and `test/libstorm.cc`, with the transactions that the kernel has
in progress.  `I2CWOperation` and `I2CROperation` differ in the syscall that starts them and in the
`length` that the second one keeps.  An operation is its number, a buffer (`buf_t`) its number.

* `I2c`      the operations, the handles and buffers user code has, and the kernel's transactions;
* `write`, `read`, `invoke`, `finish`   the code, `invoke` up to the callback and `finish` after it;
* `I2c.step`  one call by user code, or the begin or end of a completion; `step_cases` what it can
             do, case by case.

The kernel is not part of the code.  It is taken to accept a transaction or to refuse it, and to
complete each one it has accepted once.
-/

namespace Pharoah
namespace Storm

abbrev Buf := Nat

/-- `I2CWOperation` and `I2CROperation` -/
inductive Dir where
  | write
  | read
deriving DecidableEq

/-- the syscall that starts the operation -/
def Dir.number : Dir → Nat
  | .write => 0x502
  | .read => 0x501

/-- One operation; its `callback` is a member, and `self` says whether its circular reference is
set.  Only a read keeps its `length`. -/
structure Operation where
  dir : Dir
  payload : Option Buf
  length : Option Nat
  self : Bool := false
deriving DecidableEq

/-- a transaction that the kernel has accepted, with the raw pointers to buffer and operation -/
structure Transaction where
  number : Nat
  address : Nat
  flags : Nat
  payload : Option Buf
  length : Nat
  op : Nat
deriving DecidableEq

/-- a call of an operation's callback -/
structure Completion where
  op : Nat
  status : Int
  payload : Option Buf
deriving DecidableEq

/-- `handles` has an operation once for each `shared_ptr` that user code holds, `bufs` are the
buffers that user code owns, `nextBuf` the number of the next new one. -/
structure I2c where
  ops : List Operation := []
  handles : List Nat := []
  bufs : List Buf := []
  nextBuf : Buf := 0
  pending : List Transaction := []
  completed : List Completion := []

/-- A call, or (`invoke`) a completion up to its callback and (`finish`) after it; `accepted` is the
kernel's answer. -/
inductive I2cOp where
  | mkbuf
  | freebuf (b : Buf)
  | write (address flags : Nat) (payload : Option Buf) (length : Nat) (accepted : Bool)
  | read (address flags : Nat) (target : Option Buf) (length : Nat) (accepted : Bool)
  | copy (t : Nat)
  | drop (t : Nat)
  | invoke (t : Nat) (status : Int)
  | finish (t : Nat)
deriving DecidableEq

namespace I2c

/-- the two ways to start an operation: the payload moves into it, the circular reference is set up,
and the raw pointers go to the kernel, whose answer is not looked at -/
def start (s : I2c) (dir : Dir) (address flags : Nat) (payload : Option Buf) (length : Nat)
    (accepted : Bool) : I2c :=
  let this := s.ops.length
  { s with
    ops := s.ops ++ [{ dir, payload, self := true,
                       length := match dir with | .write => none | .read => some length }]
    handles := this :: s.handles
    bufs := match payload with | some b => s.bufs.erase b | none => s.bufs
    pending := if accepted then s.pending ++ [⟨dir.number, address, flags, payload, length, this⟩]
               else s.pending }

/-- `i2c::write(address, flags, payload, length, callback)` -/
def write (s : I2c) (address flags : Nat) (payload : Option Buf) (length : Nat) (accepted : Bool) : I2c :=
  s.start .write address flags payload length accepted

/-- `i2c::read(address, flags, target, length, callback)` -/
def read (s : I2c) (address flags : Nat) (target : Option Buf) (length : Nat) (accepted : Bool) : I2c :=
  s.start .read address flags target length accepted

/-- `op->invoke(status)` up to the call of the callback, which the payload moves into -/
def invoke (s : I2c) (t : Nat) (status : Int) : I2c :=
  match s.ops[t]? with
  | some P =>
    { s with
      ops := s.ops.modify t fun P => { P with payload := none }
      bufs := s.bufs ++ P.payload.toList
      completed := s.completed ++ [⟨t, status, P.payload⟩] }
  | none => s

/-- the rest of `invoke`: `self.reset()` -/
def finish (s : I2c) (t : Nat) : I2c :=
  { s with ops := s.ops.modify t fun P => { P with self := false } }

/-- the kernel completes the transaction of `t` -/
def complete (s : I2c) (t : Nat) : I2c := { s with pending := s.pending.filter fun x => x.op ≠ t }

/-- Its memory has not been released. -/
def Live (s : I2c) (t : Nat) : Prop := t ∈ s.handles ∨ ∃ P, s.ops[t]? = some P ∧ P.self = true

/-- one call, or the begin or the end of a completion -/
def step (s : I2c) : I2cOp → Option I2c
  | .mkbuf => some { s with bufs := s.nextBuf :: s.bufs, nextBuf := s.nextBuf + 1 }
  | .freebuf b => if b ∈ s.bufs then some { s with bufs := s.bufs.erase b } else none
  | .write address flags payload length accepted =>
    if ∀ b ∈ payload, b ∈ s.bufs then some (s.write address flags payload length accepted) else none
  | .read address flags target length accepted =>
    if ∀ b ∈ target, b ∈ s.bufs then some (s.read address flags target length accepted) else none
  | .copy t => if t ∈ s.handles then some { s with handles := t :: s.handles } else none
  | .drop t => if t ∈ s.handles then some { s with handles := s.handles.erase t } else none
  | .invoke t status =>
    if s.pending.any fun x => x.op = t then some ((s.complete t).invoke t status) else none
  | .finish t => some (s.finish t)

/-- What a call can do, or the begin or the end of a completion, and when it is possible. -/
inductive Steps (s : I2c) : I2cOp → I2c → Prop where
  | mkbuf : Steps s .mkbuf { s with bufs := s.nextBuf :: s.bufs, nextBuf := s.nextBuf + 1 }
  | freebuf (b : Buf) (hb : b ∈ s.bufs) : Steps s (.freebuf b) { s with bufs := s.bufs.erase b }
  | write (address flags : Nat) (payload : Option Buf) (length : Nat) (accepted : Bool)
      (hp : ∀ b ∈ payload, b ∈ s.bufs) : Steps s (.write address flags payload length accepted)
        (s.write address flags payload length accepted)
  | read (address flags : Nat) (target : Option Buf) (length : Nat) (accepted : Bool)
      (hp : ∀ b ∈ target, b ∈ s.bufs) : Steps s (.read address flags target length accepted)
        (s.read address flags target length accepted)
  | copy (t : Nat) (ht : t ∈ s.handles) : Steps s (.copy t) { s with handles := t :: s.handles }
  | drop (t : Nat) (ht : t ∈ s.handles) : Steps s (.drop t) { s with handles := s.handles.erase t }
  | invoke (t : Nat) (status : Int) (ht : ∃ x ∈ s.pending, x.op = t) :
      Steps s (.invoke t status) ((s.complete t).invoke t status)
  | finish (t : Nat) : Steps s (.finish t) (s.finish t)

theorem step_cases {s s' : I2c} {o : I2cOp} (hs : s.step o = some s') : Steps s o s' := by
  cases o with
  | mkbuf =>
    cases hs
    exact .mkbuf
  | freebuf b =>
    obtain ⟨hb, he⟩ := Option.ite_none_right_eq_some.mp hs
    cases he
    exact .freebuf b hb
  | write address flags payload length accepted =>
    obtain ⟨hp, he⟩ := Option.ite_none_right_eq_some.mp hs
    cases he
    exact .write address flags payload length accepted hp
  | read address flags target length accepted =>
    obtain ⟨hp, he⟩ := Option.ite_none_right_eq_some.mp hs
    cases he
    exact .read address flags target length accepted hp
  | copy t =>
    obtain ⟨ht, he⟩ := Option.ite_none_right_eq_some.mp hs
    cases he
    exact .copy t ht
  | drop t =>
    obtain ⟨ht, he⟩ := Option.ite_none_right_eq_some.mp hs
    cases he
    exact .drop t ht
  | invoke t status =>
    obtain ⟨ht, he⟩ := Option.ite_none_right_eq_some.mp hs
    cases he
    obtain ⟨x, hx, hxt⟩ := List.any_eq_true.mp ht
    exact .invoke t status ⟨x, hx, of_decide_eq_true hxt⟩
  | finish t =>
    cases hs
    exact .finish t

end I2c
end Storm
end Pharoah
