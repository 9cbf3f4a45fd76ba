import Pharoah.Future.Basic

/-!
# Futures: running a chain and the task queue

`run`, `callbody`, `handle_bodyret`, the accept and reject functions a body is given, and
`tq::run_one`, as programs over a `World`: the heap of futures, the task queue and the calls of
user code so far.

* `runN n f args`   `f->run(args)`, with `n` bounding the nesting of calls through closures
                    (`run`, `fire`, `run_one` take one more than the number of futures: a closure
                    always leads to a future created later);
* `Event.body`, `Event.handler`   a body was called with these values, an `errbody` was called;
* `Err`             how a call can end other than by returning: an empty `std::function` was
                    invoked, a pointer led to no future, or the bound was used up.
-/

namespace Pharoah
namespace Future

/-- a call of user code -/
inductive Event (V : Type) where
  | body (f : Ref) (args : List V)
  | handler (x : Ref) (args : List V)
deriving DecidableEq

/-- A queued closure over the accept and reject functions of the future `this`. -/
structure Task (V : Type) where
  acc : Bool
  this : Ref
  code : List (Stmt V acc)

inductive Err where
  | badFunctionCall
  | wildPointer
  | outOfFuel
deriving DecidableEq

structure World (V : Type) where
  heap : Heap V
  dyn_tq : List (Task V) := []
  trace : List (Event V) := []

abbrev M (V : Type) := EStateM Err (World V)

section
variable {V : Type}

/-! ## reading and writing the heap -/

def deref (f : Ref) : M V (Object V) := fun w =>
  match w.heap[f]? with
  | some F => .ok F w
  | none => .error .wildPointer w

def World.setErrored (w : World V) (f : Ref) : World V :=
  { w with heap := w.heap.modify f fun F => { F with errored := true } }

def World.setValue (w : World V) (f : Ref) (vs : List V) : World V :=
  { w with heap := w.heap.modify f fun F => { F with value := vs } }

def World.emit (w : World V) (e : Event V) : World V := { w with trace := w.trace ++ [e] }

def setErrored (f : Ref) : M V Unit := modify (·.setErrored f)

def setValue (f : Ref) (vs : List V) : M V Unit := modify (·.setValue f vs)

def emit (e : Event V) : M V Unit := modify (·.emit e)

/-- `tq::add`: the closure goes to the back of the queue -/
def add (t : Task V) : M V Unit := modify fun w => { w with dyn_tq := w.dyn_tq ++ [t] }

/-! ## the reject path -/

/-- `this->errbody(args)` -/
def errbody (x : Ref) (args : List V) : M V Unit := do
  let X ← deref x
  match X.kind with
  | .except => emit (.handler x args)
  | _ => throw .badFunctionCall

/-- a call of a closure that `bindforward` stored -/
def forward : Nat → Fwd → M V Unit
  | _, .errbody x => errbody x []
  | 0, .forward _ => throw .outOfFuel
  | n + 1, .forward f => do
    let F ← deref f
    match F.nxtForward with
    | some g => forward n g
    | none => pure ()

/-- the part the two reject functions share: `if(nxtReject) nxtReject(eargs...); else nxtForward();` -/
def rejectOn (n : Nat) (f : Ref) (eargs : List V) : M V Unit := do
  let F ← deref f
  match F.nxtReject with
  | some x => errbody x eargs
  | none =>
    match F.nxtForward with
    | some g => forward n g
    | none => throw .badFunctionCall

/-- the `rejectfun` handed to the body of `f`; only `REJ_MULTI` and `REJ_SINGLE` set `errored` -/
def rejectfun (n : Nat) (f : Ref) (hasRej : Bool) (eargs : List V) : M V Unit :=
  match hasRej with
  | true => do
    setErrored f
    rejectOn n f eargs
  | false => rejectOn n f eargs

/-! ## the accept path

`call` is the call of a future's `run` one closure further on. -/

variable [Movable V]

/-- the `acceptfun` handed to the body of `f` -/
def acceptfun (call : Ref → List V → M V Unit) (f : Ref) (aargs : List V) : M V Unit := do
  let F ← deref f
  match F.nxtAccept with
  | some n => call n aargs
  | none => pure ()

/-- the statements of a body, or of a queued closure, of the future `f` -/
def exec (call : Ref → List V → M V Unit) (n : Nat) (f : Ref) {acc : Bool} :
    List (Stmt V acc) → M V Unit
  | [] => pure ()
  | .accept _ vs :: code => do
    acceptfun call f vs
    exec call n f code
  | .reject es :: code => do
    rejectfun n f (!acc) es
    exec call n f code
  | .add task :: code => do
    add ⟨acc, f, task⟩
    exec call n f code

/-- A `Multi` moves its tuple into the call of `nxtAccept`, a single value is copied. -/
def handle_bodyret (call : Ref → List V → M V Unit) (f : Ref) (r : Ret) : M V Unit := do
  let F ← deref f
  match F.errored with
  | true => pure ()
  | false =>
    match F.nxtAccept with
    | none => pure ()
    | some n =>
      match r with
      | .multi => do
        setValue f (F.value.map Movable.movedFrom)
        call n F.value
      | _ => call n F.value

/-- what `callbody` does once the body has returned `vs`; a `void` body returns to `run` at once -/
def callbody (call : Ref → List V → M V Unit) (f : Ref) (r : Ret) (vs : List V) : M V Unit :=
  match r with
  | .void => pure ()
  | r => do
    setValue f vs
    handle_bodyret call f r

/-- the three `run` overloads of a future with a body -/
def runBody (call : Ref → List V → M V Unit) (n : Nat) (f : Ref) (args : List V) :
    Body V → M V Unit
  | .accRej code => exec call n f (code args)
  | .rej r code => do
    exec call n f (code args).1
    callbody call f r (code args).2
  | .noFun r code => callbody call f r (code args)

/-- `f->run(args)` -/
def runN : Nat → Ref → List V → M V Unit
  | 0, _, _ => throw .outOfFuel
  | n + 1, f, args => do
    let F ← deref f
    match F.kind with
    | .bound =>
      match F.nxtAccept with
      | none => pure ()
      | some g => do
        setValue f (F.value.map Movable.movedFrom)
        runN n g F.value
    | .unbound =>
      match F.nxtAccept with
      | none => pure ()
      | some g => runN n g args
    | .body b => do
      emit (.body f args)
      runBody (runN n) n f args b
    | .except => throw .wildPointer

def World.fuel (w : World V) : Nat := w.heap.length + 1

def run (f : Ref) (args : List V) : M V Unit := do
  let w ← get
  runN w.fuel f args

/-! ## the task queue -/

/-- `Task::fire` -/
def fire (t : Task V) : M V Unit := do
  let w ← get
  exec (runN w.fuel) w.fuel t.this t.code

def pop : M V Unit := modify fun w => { w with dyn_tq := w.dyn_tq.tail }

/-- `tq::run_one`: the front is fired while it is still queued -/
def run_one : M V Bool := do
  let w ← get
  match w.dyn_tq with
  | [] => pure false
  | t :: _ => do
    fire t
    pop
    pure true

end

end Future
end Pharoah
