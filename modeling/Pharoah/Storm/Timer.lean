import Pharoah.Storm.Queue
import Mathlib.Algebra.GroupWithZero.Nat

/-!
# Timers

`storm::Timer` in `test/libstorm.h` and `test/libstorm.cc`, with the kernel's table of timers.  A
`Timer` is its number; its memory is released once no user handle and no `self` is left.

* `Timers`     the objects, the handles user code has, and the registrations of the kernel;
* `once`, `periodic`, `cancel`, `fire`, `tmr_callback`   the code;
* `Timers.step`  one call by user code, or the delivery of an expiry by the kernel; `step_cases`
               what it can do, case by case.

The kernel is not part of the code.  It is taken to answer syscall 0x201 with an id below 2^16 that
is not registered, or to refuse (-1); to retire an id on syscall 0x205, and the id of a one-shot
timer when it delivers its expiry; and to deliver for registered ids only.
-/

namespace Pharoah
namespace Storm

/-- what syscall 0x201 leaves in the kernel: the raw pointer it was given, and the other arguments -/
structure Registration where
  ptr : Nat
  ticks : Nat
  periodic : Bool
deriving DecidableEq

/-- one `Timer`; `self` says whether its circular reference is set -/
structure Timer where
  id : Nat
  is_periodic : Bool
  callback : Fn
  self : Bool := false
deriving DecidableEq

/-- a syscall 0x205: the timer that made it, the id, and the timer the id was registered for -/
structure Cancel where
  issuer : Nat
  id : Nat
  holder : Option Nat
deriving DecidableEq

/-- `handles` has a timer once for each `shared_ptr` that user code holds. -/
structure Timers where
  objs : List Timer := []
  handles : List Nat := []
  reg : Nat → Option Registration := fun _ => none
  cancels : List Cancel := []

/-- A call on a timer, or (`tmr_callback`) an expiry; `reply` is the kernel's answer to 0x201. -/
inductive TimerOp where
  | once (ticks : Nat) (callback : Fn) (reply : Option Nat)
  | periodic (ticks : Nat) (callback : Fn) (reply : Option Nat)
  | cancel (t : Nat)
  | copy (t : Nat)
  | drop (t : Nat)
  | tmr_callback (id : Nat)
deriving DecidableEq

namespace Timers

/-- syscall 0x201 -/
def register (s : Timers) (reply : Option Nat) (r : Registration) : Nat → Option Registration :=
  match reply with
  | some i => Function.update s.reg i (some r)
  | none => s.reg

/-- `new Timer(periodic, ticks, callback)`, with the circular reference set up and the pointer
returned.  The id is cut to 16 bits. -/
def create (s : Timers) (periodic : Bool) (ticks : Nat) (callback : Fn) (reply : Option Nat) : Timers :=
  let this := s.objs.length
  { s with
    objs := s.objs ++ [{ id := (reply.getD (2 ^ 32 - 1)) % 2 ^ 16, is_periodic := periodic,
                         callback, self := true }]
    handles := this :: s.handles
    reg := s.register reply ⟨this, ticks, periodic⟩ }

/-- `Timer::once(ticks, callback)` -/
def once (s : Timers) (ticks : Nat) (callback : Fn) (reply : Option Nat) : Timers :=
  s.create false ticks callback reply

/-- `Timer::periodic(ticks, callback)` -/
def periodic (s : Timers) (ticks : Nat) (callback : Fn) (reply : Option Nat) : Timers :=
  s.create true ticks callback reply

/-- `self.reset()` -/
def resetSelf (s : Timers) (t : Nat) : Timers :=
  { s with objs := s.objs.modify t fun T => { T with self := false } }

/-- syscall 0x205 by the timer `t` -/
def syscall_cancel (s : Timers) (t id : Nat) : Timers :=
  { s with reg := Function.update s.reg id none
           cancels := s.cancels ++ [⟨t, id, (s.reg id).map Registration.ptr⟩] }

/-- `t->cancel()` -/
def cancel (s : Timers) (t : Nat) : Timers :=
  match s.objs[t]? with
  | some T => if T.self then (s.syscall_cancel t T.id).resetSelf t else s
  | none => s

/-- `t->fire()`, without the task that it adds -/
def fire (s : Timers) (t : Nat) : Timers :=
  match s.objs[t]? with
  | some T => if T.is_periodic then s else s.resetSelf t
  | none => s

/-- the kernel delivers an expiry -/
def expire (s : Timers) (id : Nat) (r : Registration) : Timers :=
  if r.periodic then s else { s with reg := Function.update s.reg id none }

/-- `tmr_callback` with the pointer registered for `id` -/
def tmr_callback (s : Timers) (id : Nat) : Option Timers :=
  (s.reg id).map fun r => (s.expire id r).fire r.ptr

/-- the timer that the expiry is delivered to, and the callback that `fire` adds to the queue -/
def fired (s : Timers) (id : Nat) : Option (Nat × Fn) :=
  (s.reg id).bind fun r => (s.objs[r.ptr]?).map fun T => (r.ptr, T.callback)

/-- Its memory has not been released. -/
def Live (s : Timers) (t : Nat) : Prop := t ∈ s.handles ∨ ∃ T, s.objs[t]? = some T ∧ T.self = true

/-- an answer of the kernel to 0x201 -/
def Grants (s : Timers) (reply : Option Nat) : Prop := ∀ i ∈ reply, i < 2 ^ 16 ∧ s.reg i = none

instance (s : Timers) (reply : Option Nat) : Decidable (s.Grants reply) :=
  match reply with
  | none => isTrue (fun _ h => by cases h)
  | some i => decidable_of_iff (i < 2 ^ 16 ∧ s.reg i = none)
      ⟨fun h j hj => (Option.some.inj hj) ▸ h, fun h => h i rfl⟩

/-- one call, or one expiry -/
def step (s : Timers) : TimerOp → Option Timers
  | .once ticks callback reply =>
    if s.Grants reply then some (s.once ticks callback reply) else none
  | .periodic ticks callback reply =>
    if s.Grants reply then some (s.periodic ticks callback reply) else none
  | .cancel t => if t ∈ s.handles then some (s.cancel t) else none
  | .copy t => if t ∈ s.handles then some { s with handles := t :: s.handles } else none
  | .drop t => if t ∈ s.handles then some { s with handles := s.handles.erase t } else none
  | .tmr_callback id => s.tmr_callback id

/-- What a call or an expiry can do, and when it is possible. -/
inductive Steps (s : Timers) : TimerOp → Timers → Prop where
  | once (ticks : Nat) (callback : Fn) (reply : Option Nat) (hg : s.Grants reply) :
      Steps s (.once ticks callback reply) (s.once ticks callback reply)
  | periodic (ticks : Nat) (callback : Fn) (reply : Option Nat) (hg : s.Grants reply) :
      Steps s (.periodic ticks callback reply) (s.periodic ticks callback reply)
  | cancel (t : Nat) (ht : t ∈ s.handles) : Steps s (.cancel t) (s.cancel t)
  | copy (t : Nat) (ht : t ∈ s.handles) : Steps s (.copy t) { s with handles := t :: s.handles }
  | drop (t : Nat) (ht : t ∈ s.handles) : Steps s (.drop t) { s with handles := s.handles.erase t }
  | tmr_callback (id : Nat) (r : Registration) (hr : s.reg id = some r) :
      Steps s (.tmr_callback id) ((s.expire id r).fire r.ptr)

theorem step_cases {s s' : Timers} {o : TimerOp} (hs : s.step o = some s') : Steps s o s' := by
  cases o with
  | once ticks callback reply =>
    obtain ⟨hg, he⟩ := Option.ite_none_right_eq_some.mp hs
    cases he
    exact .once ticks callback reply hg
  | periodic ticks callback reply =>
    obtain ⟨hg, he⟩ := Option.ite_none_right_eq_some.mp hs
    cases he
    exact .periodic ticks callback reply hg
  | cancel t =>
    obtain ⟨ht, he⟩ := Option.ite_none_right_eq_some.mp hs
    cases he
    exact .cancel t ht
  | copy t =>
    obtain ⟨ht, he⟩ := Option.ite_none_right_eq_some.mp hs
    cases he
    exact .copy t ht
  | drop t =>
    obtain ⟨ht, he⟩ := Option.ite_none_right_eq_some.mp hs
    cases he
    exact .drop t ht
  | tmr_callback id =>
    obtain ⟨r, hr, rfl⟩ := Option.map_eq_some_iff.mp hs
    exact .tmr_callback id r hr

end Timers
end Storm
end Pharoah
