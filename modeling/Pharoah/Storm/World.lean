import Mathlib.Data.List.Basic
import Pharoah.Lib.Lts
import Pharoah.Storm.Timer
import Pharoah.Storm.Udp
import Pharoah.Storm.I2c

/-!
# A payload program

The library of `test/libstorm.cc` with the user code that calls it and the kernel that calls back.
User code is anything: `main`, a fired task and a callback of a packet or of a completion may make
any calls in any order, with one exception: while a task is running `run_one` and `scheduler` are not
called (`noTask`).  `World.nested` in `Storm.Running` has the steps with these calls.  The kernel may
deliver at any time; `InWaits` says that it does so only inside `k_wait_callback`.

* `Frame`       what is on the stack, above `main`;
* `World`       the components, the function objects user code holds, and the stack;
* `World.step`  one call by user code, one turn of the scheduler, one return, or one delivery;
                `step_cases` what it can do, case by case.
-/

namespace Pharoah
namespace Storm

/-- `scheduler idle` is the loop of `tq::scheduler`; `idle` says that its inner loop has ended and
`k_wait_callback` is called next, or is running. -/
inductive Frame where
  | scheduler (idle : Bool)
  | wait
  | task (t : Task)
  | udp (sock : Nat) (callback : Fn) (p : Packet)
  | i2c (op : Nat)
deriving DecidableEq

def Frame.isTask : Frame → Bool
  | .task _ => true
  | _ => false

/-- `fns` has a function object once for each `shared_ptr` that user code holds, `nextFn` is the
number of the next new one. -/
structure World where
  tq : Tq := {}
  gpio : Gpio := {}
  timers : Timers := {}
  udp : Udp := {}
  i2c : I2c := {}
  fns : List Fn := []
  nextFn : Fn := 0
  stack : List Frame := []

inductive Act where
  | mkFn
  | copyFn (f : Fn)
  | dropFn (f : Fn)
  | add (f : Fn)
  | enable_irq (pin : Pin) (edge : Nat) (callback : Option Fn)
  | disable_irq (pin : Pin)
  | timer (o : TimerOp)
  | udp (o : UdpOp)
  | i2c (o : I2cOp)
  | run_one
  | scheduler
  | k_wait_callback
  | schedule
  | ret
  | irq_callback (idx : Nat)
  | udp_callback (id : Int32) (recv : udp_recv_params_t) (addrstr : String)
deriving DecidableEq

namespace World

/-- User code is running: `main`, a task, or a callback. -/
def code (w : World) : Bool :=
  match w.stack with
  | [] => true
  | .task _ :: _ => true
  | .udp _ _ _ :: _ => true
  | .i2c _ :: _ => true
  | _ => false

/-- No task is running: the task that runs is still the front of the queue, and a `run_one` inside it would
fire it again. -/
def noTask (w : World) : Bool := !w.stack.any Frame.isTask

/-- Releasing an object releases what its members hold, so a handle can be dropped, or a buffer
freed, by any step; any other call is made by user code, with a callback that it holds. -/
def mayTimer (w : World) : TimerOp → Bool
  | .once _ callback _ => w.code && w.fns.contains callback
  | .periodic _ callback _ => w.code && w.fns.contains callback
  | .cancel _ => w.code
  | .copy _ => w.code
  | .drop _ => true
  | .tmr_callback _ => true

def mayUdp (w : World) : UdpOp → Bool
  | .open_ _ callback _ => w.code && w.fns.contains callback
  | .drop _ => true
  | _ => w.code

/-- `finish` is the return from the callback that `invoke` calls. -/
def mayI2c (w : World) : I2cOp → Bool
  | .drop _ => true
  | .freebuf _ => true
  | .invoke _ _ => true
  | .finish t => w.stack.head? = some (.i2c t)
  | _ => w.code

theorem mayI2c_finish {w : World} {t : Nat} (h : w.mayI2c (.finish t) = true) :
    w.stack = .i2c t :: w.stack.tail := List.eq_cons_of_mem_head? (of_decide_eq_true h)

/-- the queue after a call on a timer: an expiry adds the timer's callback -/
def timerQueue (w : World) : TimerOp → Tq
  | .tmr_callback id =>
    match w.timers.fired id with
    | some (t, callback) => w.tq.add callback (.timer t)
    | none => w.tq
  | _ => w.tq

theorem timerQueue_some {w : World} {id t : Nat} {callback : Fn}
    (h : w.timers.fired id = some (t, callback)) :
    w.timerQueue (.tmr_callback id) = w.tq.add callback (.timer t) := by
  simp only [timerQueue, h]

theorem timerQueue_none {w : World} {id : Nat} (h : w.timers.fired id = none) :
    w.timerQueue (.tmr_callback id) = w.tq := by
  simp only [timerQueue, h]

/-- the stack after a call on an operation -/
def i2cStack (w : World) : I2cOp → List Frame
  | .invoke t _ => .i2c t :: w.stack
  | .finish _ => w.stack.tail
  | _ => w.stack

/-- `Task::fire` of the front of the queue, which stays in the queue; does nothing if it is empty -/
def fireFront (w : World) : World :=
  match w.tq.dyn_tq with
  | [] => w
  | t :: _ => { w with tq := w.tq.fire t, stack := .task t :: w.stack }

/-- one turn of the loop `while(1) { while(run_one()); k_wait_callback(); }` -/
def schedule (w : World) : Option World :=
  match w.stack with
  | .scheduler false :: rest =>
    match w.tq.dyn_tq with
    | [] => some { w with stack := .scheduler true :: rest }
    | _ :: _ => some w.fireFront
  | .scheduler true :: _ => some { w with stack := .wait :: w.stack }
  | _ => none

/-- What is on top of the stack returns.  The task that has run is popped by `run_one`. -/
def ret (w : World) : Option World :=
  match w.stack with
  | .task _ :: rest => some { w with tq := w.tq.pop, stack := rest }
  | .wait :: .scheduler _ :: rest => some { w with stack := .scheduler false :: rest }
  | .wait :: rest => some { w with stack := rest }
  | .udp _ _ _ :: rest => some { w with stack := rest }
  | _ => none

theorem fireFront_control (w : World) : ∃ q st, w.fireFront = { w with tq := q, stack := st } := by
  unfold fireFront
  split
  · exact ⟨w.tq, w.stack, rfl⟩
  · exact ⟨_, _, rfl⟩

/-- `irq_callback(idx)` -/
def irq_callback (w : World) (idx : Nat) : World :=
  let r := w.gpio.irq_callback idx
  { w with
    gpio := r.1
    tq := match r.2 with | some f => w.tq.add f (.irq idx) | none => w.tq }

theorem irq_callback_some {w : World} {idx : Nat} {f : Fn}
    (h : (w.gpio.irq_callback idx).2 = some f) : (w.irq_callback idx).tq = w.tq.add f (.irq idx) := by
  simp only [irq_callback, h]

theorem irq_callback_none {w : World} {idx : Nat} (h : (w.gpio.irq_callback idx).2 = none) :
    (w.irq_callback idx).tq = w.tq := by
  simp only [irq_callback, h]

/-- `udp_callback`, with the pointer registered for `id`, up to the call of the callback -/
def udp_callback (w : World) (id : Int32) (recv : udp_recv_params_t) (addrstr : String) :
    Option World :=
  (w.udp.receiver id).map fun r =>
    { w with stack := .udp r.1 r.2 (packet recv addrstr) :: w.stack }

/-- one step -/
def step (w : World) : Act → Option World
  | .mkFn => if w.code then some { w with fns := w.nextFn :: w.fns, nextFn := w.nextFn + 1 } else none
  | .copyFn f => if w.code && w.fns.contains f then some { w with fns := f :: w.fns } else none
  | .dropFn f => if w.fns.contains f then some { w with fns := w.fns.erase f } else none
  | .add f => if w.code && w.fns.contains f then some { w with tq := w.tq.add f .user } else none
  | .enable_irq pin edge callback =>
    if w.code && callback.all w.fns.contains then
      some { w with gpio := w.gpio.enable_irq pin edge callback }
    else none
  | .disable_irq pin => if w.code then some { w with gpio := w.gpio.disable_irq pin } else none
  | .timer o =>
    if w.mayTimer o then
      (w.timers.step o).map fun ts => { w with timers := ts, tq := w.timerQueue o }
    else none
  | .udp o => if w.mayUdp o then (w.udp.step o).map fun u => { w with udp := u } else none
  | .i2c o =>
    if w.mayI2c o then (w.i2c.step o).map fun s => { w with i2c := s, stack := w.i2cStack o } else none
  | .run_one => if w.code && w.noTask then some w.fireFront else none
  | .scheduler =>
    if w.code && w.noTask then some { w with stack := .scheduler false :: w.stack } else none
  | .k_wait_callback => if w.code then some { w with stack := .wait :: w.stack } else none
  | .schedule => w.schedule
  | .ret => w.ret
  | .irq_callback idx => some (w.irq_callback idx)
  | .udp_callback id recv addrstr => w.udp_callback id recv addrstr

/-- What a step can do, and when it is possible. -/
inductive Steps (w : World) : Act → World → Prop where
  | mkFn (hc : w.code = true) :
      Steps w .mkFn { w with fns := w.nextFn :: w.fns, nextFn := w.nextFn + 1 }
  | copyFn (f : Fn) (hc : w.code = true) (hf : f ∈ w.fns) :
      Steps w (.copyFn f) { w with fns := f :: w.fns }
  | dropFn (f : Fn) (hf : f ∈ w.fns) : Steps w (.dropFn f) { w with fns := w.fns.erase f }
  | add (f : Fn) (hc : w.code = true) (hf : f ∈ w.fns) : Steps w (.add f) { w with tq := w.tq.add f .user }
  | enable_irq (pin : Pin) (edge : Nat) (callback : Option Fn) (hc : w.code = true)
      (hf : ∀ f, callback = some f → f ∈ w.fns) :
      Steps w (.enable_irq pin edge callback) { w with gpio := w.gpio.enable_irq pin edge callback }
  | disable_irq (pin : Pin) (hc : w.code = true) :
      Steps w (.disable_irq pin) { w with gpio := w.gpio.disable_irq pin }
  | timer (o : TimerOp) (ts : Timers) (hm : w.mayTimer o = true) (ht : w.timers.step o = some ts) :
      Steps w (.timer o) { w with timers := ts, tq := w.timerQueue o }
  | udp (o : UdpOp) (u : Udp) (hm : w.mayUdp o = true) (hu : w.udp.step o = some u) :
      Steps w (.udp o) { w with udp := u }
  | i2c (o : I2cOp) (s : I2c) (hm : w.mayI2c o = true) (hi : w.i2c.step o = some s) :
      Steps w (.i2c o) { w with i2c := s, stack := w.i2cStack o }
  | run_one (hc : w.code = true) (hn : w.noTask = true) : Steps w .run_one w.fireFront
  | scheduler (hc : w.code = true) (hn : w.noTask = true) :
      Steps w .scheduler { w with stack := .scheduler false :: w.stack }
  | k_wait_callback (hc : w.code = true) :
      Steps w .k_wait_callback { w with stack := .wait :: w.stack }
  | idle (rest : List Frame) (hst : w.stack = .scheduler false :: rest) (hq : w.tq.dyn_tq = []) :
      Steps w .schedule { w with stack := .scheduler true :: rest }
  | fire (rest : List Frame) (hst : w.stack = .scheduler false :: rest) : Steps w .schedule w.fireFront
  | sleep (rest : List Frame) (hst : w.stack = .scheduler true :: rest) :
      Steps w .schedule { w with stack := .wait :: w.stack }
  | pop (t : Task) (rest : List Frame) (hst : w.stack = .task t :: rest) :
      Steps w .ret { w with tq := w.tq.pop, stack := rest }
  | wake (b : Bool) (rest : List Frame) (hst : w.stack = .wait :: .scheduler b :: rest) :
      Steps w .ret { w with stack := .scheduler false :: rest }
  | waited (rest : List Frame) (hst : w.stack = .wait :: rest)
      (hno : ∀ b r, rest ≠ .scheduler b :: r) : Steps w .ret { w with stack := rest }
  | received (s : Nat) (f : Fn) (p : Packet) (rest : List Frame) (hst : w.stack = .udp s f p :: rest) :
      Steps w .ret { w with stack := rest }
  | irq_callback (idx : Nat) : Steps w (.irq_callback idx) (w.irq_callback idx)
  | udp_callback (id : Int32) (recv : udp_recv_params_t) (addrstr : String) (s : Nat) (f : Fn)
      (hr : w.udp.receiver id = some (s, f)) :
      Steps w (.udp_callback id recv addrstr) { w with stack := .udp s f (packet recv addrstr) :: w.stack }

theorem schedule_cases {w w' : World} (hs : w.schedule = some w') : Steps w .schedule w' := by
  unfold schedule at hs
  split at hs
  · next rest hst =>
    split at hs
    · next hq =>
      cases hs
      exact .idle rest hst hq
    · cases hs
      exact .fire rest hst
  · next rest hst =>
    cases hs
    exact .sleep rest hst
  · cases hs

theorem ret_cases {w w' : World} (hs : w.ret = some w') : Steps w .ret w' := by
  unfold ret at hs
  split at hs
  · next t rest hst =>
    cases hs
    exact .pop t rest hst
  · next b rest hst =>
    cases hs
    exact .wake b rest hst
  · next rest hno hst =>
    cases hs
    exact .waited rest hst hno
  · next s f p rest hst =>
    cases hs
    exact .received s f p rest hst
  · cases hs

theorem step_cases {w w' : World} {a : Act} (hs : w.step a = some w') : Steps w a w' := by
  cases a with
  | mkFn =>
    obtain ⟨hc, he⟩ := Option.ite_none_right_eq_some.mp hs
    cases he
    exact .mkFn hc
  | copyFn f =>
    obtain ⟨hm, he⟩ := Option.ite_none_right_eq_some.mp hs
    cases he
    obtain ⟨hc, hf⟩ := Bool.and_eq_true_iff.mp hm
    exact .copyFn f hc (List.contains_iff_mem.mp hf)
  | dropFn f =>
    obtain ⟨hf, he⟩ := Option.ite_none_right_eq_some.mp hs
    cases he
    exact .dropFn f (List.contains_iff_mem.mp hf)
  | add f =>
    obtain ⟨hm, he⟩ := Option.ite_none_right_eq_some.mp hs
    cases he
    obtain ⟨hc, hf⟩ := Bool.and_eq_true_iff.mp hm
    exact .add f hc (List.contains_iff_mem.mp hf)
  | enable_irq pin edge callback =>
    obtain ⟨hm, he⟩ := Option.ite_none_right_eq_some.mp hs
    cases he
    obtain ⟨hc, hf⟩ := Bool.and_eq_true_iff.mp hm
    refine .enable_irq pin edge callback hc fun f he => ?_
    subst he
    exact List.contains_iff_mem.mp hf
  | disable_irq pin =>
    obtain ⟨hc, he⟩ := Option.ite_none_right_eq_some.mp hs
    cases he
    exact .disable_irq pin hc
  | timer o =>
    obtain ⟨hm, he⟩ := Option.ite_none_right_eq_some.mp hs
    obtain ⟨ts, ht, rfl⟩ := Option.map_eq_some_iff.mp he
    exact .timer o ts hm ht
  | udp o =>
    obtain ⟨hm, he⟩ := Option.ite_none_right_eq_some.mp hs
    obtain ⟨u, hu, rfl⟩ := Option.map_eq_some_iff.mp he
    exact .udp o u hm hu
  | i2c o =>
    obtain ⟨hm, he⟩ := Option.ite_none_right_eq_some.mp hs
    obtain ⟨s, hi, rfl⟩ := Option.map_eq_some_iff.mp he
    exact .i2c o s hm hi
  | run_one =>
    obtain ⟨hm, he⟩ := Option.ite_none_right_eq_some.mp hs
    cases he
    obtain ⟨hc, hn⟩ := Bool.and_eq_true_iff.mp hm
    exact .run_one hc hn
  | scheduler =>
    obtain ⟨hm, he⟩ := Option.ite_none_right_eq_some.mp hs
    cases he
    obtain ⟨hc, hn⟩ := Bool.and_eq_true_iff.mp hm
    exact .scheduler hc hn
  | k_wait_callback =>
    obtain ⟨hc, he⟩ := Option.ite_none_right_eq_some.mp hs
    cases he
    exact .k_wait_callback hc
  | schedule => exact schedule_cases hs
  | ret => exact ret_cases hs
  | irq_callback idx =>
    cases hs
    exact .irq_callback idx
  | udp_callback id recv addrstr =>
    obtain ⟨⟨s, f⟩, hr, rfl⟩ := Option.map_eq_some_iff.mp hs
    exact .udp_callback id recv addrstr s f hr

/-- the state after a run of a program from its start -/
def runs (as : List Act) : Option World := Lts.exec step {} as

end World

/-- a delivery by the kernel -/
def Act.delivers : Act → Bool
  | .irq_callback _ => true
  | .udp_callback _ _ _ => true
  | .timer (.tmr_callback _) => true
  | .i2c (.invoke _ _) => true
  | _ => false

/-- The kernel delivers only inside `k_wait_callback`. -/
def InWaits (w : World) (a : Act) : Prop := a.delivers = true → w.stack.head? = some .wait

end Storm
end Pharoah
