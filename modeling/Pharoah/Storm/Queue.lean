import Mathlib.Logic.Function.Basic

/-!
# The task queue and the interrupt table

`storm::tq` and the interrupt part of `storm::gpio` in `test/libstorm.cc`.  A `shared_ptr` to a
`std::function<void()>` is the number of the function object; numbers are not used twice.

* `Tq`      the queue `dyn_tq`, with all the tasks that were added and fired so far;
* `pins`    the pins that the library declares;
* `Gpio`    the table `irq_ptrs` and the pins that the kernel has armed;
* `disable_irq`, `enable_irq`, `irq_callback`   the operations on it.
-/

namespace Pharoah
namespace Storm

/-- a shared `std::function` -/
abbrev Fn := Nat

/-! ## the queue -/

/-- who added a task: user code, an interrupt, or the expiry of a timer -/
inductive Origin where
  | user
  | irq (idx : Nat)
  | timer (t : Nat)
deriving DecidableEq

/-- A `Task`.  The code has its `target` only; `origin` says who added it and `serial` how many
tasks were added before. -/
structure Task where
  target : Fn
  origin : Origin
  serial : Nat
deriving DecidableEq

/-- `added` and `fired` are the tasks added and fired so far. -/
structure Tq where
  dyn_tq : List Task := []
  added : List Task := []
  fired : List Task := []

namespace Tq

/-- `tq::add(target)` for a `shared_ptr` -/
def add (q : Tq) (target : Fn) (origin : Origin) : Tq :=
  let task : Task := ⟨target, origin, q.added.length⟩
  { q with dyn_tq := q.dyn_tq ++ [task], added := q.added ++ [task] }

/-- `Task::fire` begins -/
def fire (q : Tq) (t : Task) : Tq := { q with fired := q.fired ++ [t] }

/-- `dyn_tq.pop()` -/
def pop (q : Tq) : Tq := { q with dyn_tq := q.dyn_tq.tail }

end Tq

/-! ## interrupts -/

structure Pin where
  idx : Nat
  spec : Nat
deriving DecidableEq

def Pin.D0 : Pin := ⟨0, 0x0109⟩
def Pin.D1 : Pin := ⟨1, 0x010A⟩
def Pin.D2 : Pin := ⟨2, 0x0010⟩
def Pin.D3 : Pin := ⟨3, 0x000C⟩
def Pin.D4 : Pin := ⟨4, 0x0209⟩
def Pin.D5 : Pin := ⟨5, 0x000A⟩
def Pin.D6 : Pin := ⟨6, 0x000B⟩
def Pin.D7 : Pin := ⟨7, 0x0013⟩
def Pin.D8 : Pin := ⟨8, 0x000D⟩
def Pin.D9 : Pin := ⟨9, 0x010B⟩
def Pin.D10 : Pin := ⟨10, 0x010C⟩
def Pin.D11 : Pin := ⟨11, 0x010F⟩
def Pin.D12 : Pin := ⟨12, 0x010E⟩
def Pin.D13 : Pin := ⟨13, 0x010D⟩
def Pin.A0 : Pin := ⟨14, 0x0105⟩
def Pin.A1 : Pin := ⟨15, 0x0104⟩
def Pin.A2 : Pin := ⟨16, 0x0103⟩
def Pin.A3 : Pin := ⟨17, 0x0102⟩
def Pin.A4 : Pin := ⟨18, 0x0007⟩
def Pin.A5 : Pin := ⟨19, 0x0005⟩
def Pin.GP0 : Pin := ⟨20, 0x020A⟩

/-- the pins that the library declares -/
def pins : List Pin :=
  [.D0, .D1, .D2, .D3, .D4, .D5, .D6, .D7, .D8, .D9, .D10, .D11, .D12, .D13, .A0, .A1, .A2, .A3, .A4, .A5,
   .GP0]

/-- number of entries of `irq_ptrs` -/
def irq_entries : Nat := 20

/-- The table and the kernel's side of it.  The entries from `irq_entries` on are what lies behind
the table in memory, taken to be null at the start; `touched` has the index of each access.
`armed spec` is the edge and the index that the pin was last armed with, by syscall 0x106. -/
structure Gpio where
  irq_ptrs : Nat → Option Fn := fun _ => none
  touched : List Nat := []
  armed : Nat → Option (Nat × Nat) := fun _ => none

namespace Gpio

/-- `disable_irq(pin)`: syscall 0x108 and `reset()`, if the entry is set -/
def disable_irq (g : Gpio) (pin : Pin) : Gpio :=
  match g.irq_ptrs pin.idx with
  | some _ =>
    { irq_ptrs := Function.update g.irq_ptrs pin.idx none
      touched := g.touched ++ [pin.idx, pin.idx]
      armed := Function.update g.armed pin.spec none }
  | none => { g with touched := g.touched ++ [pin.idx] }

/-- `enable_irq(pin, edge, callback)`: the assignment and syscall 0x106 -/
def enable_irq (g : Gpio) (pin : Pin) (edge : Nat) (callback : Option Fn) : Gpio :=
  let g := g.disable_irq pin
  { irq_ptrs := Function.update g.irq_ptrs pin.idx callback
    touched := g.touched ++ [pin.idx]
    armed := Function.update g.armed pin.spec (some (edge, pin.idx)) }

/-- `irq_callback(idx)`, and the callback it puts on the queue -/
def irq_callback (g : Gpio) (idx : Nat) : Gpio × Option Fn :=
  if idx ≤ 20 then
    match g.irq_ptrs idx with
    | some f => ({ g with touched := g.touched ++ [idx, idx] }, some f)
    | none => ({ g with touched := g.touched ++ [idx] }, none)
  else (g, none)

end Gpio
end Storm
end Pharoah
