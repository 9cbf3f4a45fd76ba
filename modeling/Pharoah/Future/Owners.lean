import Pharoah.Lib.Lts
import Pharoah.Lib.Owner
import Pharoah.Future.Run

/-!
# Futures: the program between two calls of user code

User code here is anything: in every body, handler and queued closure, and between them, it may
create futures, link them, copy and drop its handles, run a future and call the functions it was
given, in any order.  One action is one such call, up to the next user code it reaches.

* `Funs`               the accept and reject functions a body is given: they hold a raw `this`;
* `Frame`              the user code that is running: a body, a handler, or a queued closure;
* `Program`            the heap, the handles user code holds, the task queue and the stack;
* `Reach`              what a call does before user code runs again: the futures it reads through
                       a pointer, the heap it leaves and the user code it calls;
* `act s a`            the futures that the action `a` reads, and the program after it;
* `act_cases`          what an action can do, case by case.
-/

namespace Pharoah
namespace Future

/-- The reject function a body of `this` is given and, if `acc`, the accept function. -/
structure Funs where
  acc : Bool
  this : Ref
deriving DecidableEq

/-- running user code; a queued closure may hold the functions of a body -/
inductive Frame (V : Type) where
  | call (e : Event V)
  | task (fn : Option Funs)
deriving DecidableEq

/-- `handles` has a future once for each `shared_ptr` that user code holds. -/
structure Program (V : Type) where
  heap : Heap V := []
  handles : List Ref := []
  dyn_tq : List (Option Funs) := []
  stack : List (Frame V) := []

/-- what user code can do -/
inductive Act (V : Type) where
  | bound (vs : List V)
  | unbound
  | then_ (f : Ref) (b : Body V)
  | except (f : Ref)
  | copy (f : Ref)
  | drop (f : Ref)
  | run (f : Ref) (args : List V)
  | accept (vs : List V)
  | reject (es : List V)
  | add (keep : Bool)
  | ret (vs : List V)
  | run_one

/-- what a call does before user code runs again -/
structure Reach (V : Type) where
  derefs : List Ref
  heap : Heap V
  calls : List (Frame V)

section
variable {V : Type}

def Reach.after (f : Ref) (r : Reach V) : Reach V := { r with derefs := f :: r.derefs }

/-! ## rejecting -/

/-- `this->errbody(args)` -/
def errbodyTo (h : Heap V) (x : Ref) (args : List V) : Reach V :=
  match (h[x]?).map Object.kind with
  | some .except => ⟨[x], h, [.call (.handler x args)]⟩
  | _ => ⟨[x], h, []⟩

/-- a call of a closure that `bindforward` stored; `n` bounds the closures it goes through -/
def forwardTo : Nat → Heap V → Fwd → Reach V
  | _, h, .errbody x => errbodyTo h x []
  | 0, h, .forward _ => ⟨[], h, []⟩
  | n + 1, h, .forward f =>
    match (h[f]?).bind Object.nxtForward with
    | some g => (forwardTo n h g).after f
    | none => ⟨[f], h, []⟩

/-- `if(nxtReject) nxtReject(eargs...); else nxtForward();`: with neither set the call throws
`bad_function_call` into the user code that made it -/
def rejectOnTo (n : Nat) (h : Heap V) (f : Ref) (eargs : List V) : Reach V :=
  match (h[f]?).bind Object.nxtReject with
  | some x => (errbodyTo h x eargs).after f
  | none =>
    match (h[f]?).bind Object.nxtForward with
    | some g => (forwardTo n h g).after f
    | none => ⟨[f], h, []⟩

/-- a call of a stored `rejectfun`; the one of `REJ_MULTI` and `REJ_SINGLE` sets `errored` -/
def rejectfunTo (n : Nat) (h : Heap V) (fn : Funs) (eargs : List V) : Reach V :=
  match fn.acc with
  | true => rejectOnTo n h fn.this eargs
  | false =>
    rejectOnTo n (h.modify fn.this fun F => { F with errored := true }) fn.this eargs

/-! ## accepting -/

variable [Movable V]

/-- what a `Multi` is left with after its tuple has been moved into a call -/
def Object.moved (F : Object V) : Object V := { F with value := F.value.map Movable.movedFrom }

/-- `f->run(args)`, up to the body that it calls -/
def runTo : Nat → Heap V → Ref → List V → Reach V
  | 0, h, _, _ => ⟨[], h, []⟩
  | n + 1, h, f, args =>
    match h[f]? with
    | none => ⟨[f], h, []⟩
    | some F =>
      match F.kind, F.nxtAccept with
      | .bound, some g => (runTo n (h.modify f Object.moved) g F.value).after f
      | .unbound, some g => (runTo n h g args).after f
      | .body _, _ => ⟨[f], h, [.call (.body f args)]⟩
      | _, _ => ⟨[f], h, []⟩

/-- a call of a stored `acceptfun` -/
def acceptfunTo (n : Nat) (h : Heap V) (f : Ref) (aargs : List V) : Reach V :=
  match (h[f]?).bind Object.nxtAccept with
  | some g => (runTo n h g aargs).after f
  | none => ⟨[f], h, []⟩

/-- `handle_bodyret()` -/
def handle_bodyretTo (n : Nat) (h : Heap V) (f : Ref) (r : Ret) : Reach V :=
  match h[f]? with
  | none => ⟨[f], h, []⟩
  | some F =>
    match F.errored, F.nxtAccept with
    | false, some g =>
      match r with
      | .multi => (runTo n (h.modify f Object.moved) g F.value).after f
      | _ => (runTo n h g F.value).after f
    | _, _ => ⟨[f], h, []⟩

/-- what `callbody` does once the body has returned `vs` -/
def callbodyTo (n : Nat) (h : Heap V) (f : Ref) (r : Ret) (vs : List V) : Reach V :=
  match r with
  | .void => ⟨[], h, []⟩
  | r => handle_bodyretTo n (h.modify f fun F => { F with value := vs }) f r

/-- the end of `run` once the body of `f` has returned `vs` -/
def runEnd (n : Nat) (h : Heap V) (f : Ref) (vs : List V) : Body V → Reach V
  | .accRej _ => ⟨[], h, []⟩
  | .rej r _ => callbodyTo n h f r vs
  | .noFun r _ => callbodyTo n h f r vs

/-! ## the program -/

omit [Movable V] in
/-- the functions that the body of `f` is given -/
def bodyFuns (h : Heap V) (f : Ref) : Option Funs :=
  match (h[f]?).map Object.kind with
  | some (.body (.accRej _)) => some ⟨true, f⟩
  | some (.body (.rej _ _)) => some ⟨false, f⟩
  | _ => none

omit [Movable V] in
/-- the functions that running user code was given -/
def Frame.funs (h : Heap V) : Frame V → Option Funs
  | .call (.body f _) => bodyFuns h f
  | .call (.handler _ _) => none
  | .task fn => fn

def Frame.isTask : Frame V → Bool
  | .task _ => true
  | _ => false

namespace Program

/-- every closure leads to a future created later -/
def fuel (s : Program V) : Nat := s.heap.length + 1

/-- the functions of the code on top of the stack -/
def funs (s : Program V) : Option Funs := s.stack.head?.bind (Frame.funs s.heap)

/-- the call has reached user code, or come back -/
def reach (s : Program V) (r : Reach V) : List Ref × Program V :=
  (r.derefs, { s with heap := r.heap, stack := r.calls ++ s.stack })

/-- user code keeps the `shared_ptr` of the future just created -/
def create (s : Program V) (h : Heap V) : Program V :=
  { s with heap := h, handles := s.heap.length :: s.handles }

end Program

/-- The futures that an action reads through a pointer, and the program after it.  A future is used
through a handle that user code has; `ret` ends the code on top of the stack, and where `run` goes
on to `nxtAccept` after its body, nothing of it is left to do once that call has been made. -/
def act (s : Program V) : Act V → Option (List Ref × Program V)
  | .bound vs => some ([], s.create (bound s.heap vs))
  | .unbound => some ([], s.create (unbound s.heap))
  | .then_ f b =>
    if f ∈ s.handles then some ([f], s.create (then_ s.heap f b)) else none
  | .except f =>
    if f ∈ s.handles then some ([f], { s with heap := except s.heap f }) else none
  | .copy f => if f ∈ s.handles then some ([], { s with handles := f :: s.handles }) else none
  | .drop f => if f ∈ s.handles then some ([], { s with handles := s.handles.erase f }) else none
  | .run f args => if f ∈ s.handles then some (s.reach (runTo s.fuel s.heap f args)) else none
  | .accept vs =>
    match s.funs with
    | some ⟨true, f⟩ => some (s.reach (acceptfunTo s.fuel s.heap f vs))
    | _ => none
  | .reject es =>
    match s.funs with
    | some fn => some (s.reach (rejectfunTo s.fuel s.heap fn es))
    | none => none
  | .add true =>
    match s.funs with
    | some fn => some ([], { s with dyn_tq := s.dyn_tq ++ [some fn] })
    | none => none
  | .add false => some ([], { s with dyn_tq := s.dyn_tq ++ [none] })
  | .ret vs =>
    match s.stack with
    | [] => none
    | .call (.body f _) :: rest =>
      match (s.heap[f]?).map Object.kind with
      | some (.body b) => some ({ s with stack := rest }.reach (runEnd s.fuel s.heap f vs b))
      | _ => none
    | .call (.handler _ _) :: rest => some ([], { s with stack := rest })
    | .task _ :: rest => some ([], { s with dyn_tq := s.dyn_tq.tail, stack := rest })
  | .run_one =>
    match s.dyn_tq with
    | [] => some ([], s)
    | t :: _ =>
      if s.stack.any Frame.isTask then none else some ([], { s with stack := .task t :: s.stack })

/-- the futures the action reads -/
def derefs (s : Program V) (a : Act V) : List Ref := ((act s a).map Prod.fst).getD []

def step (s : Program V) (a : Act V) : Option (Program V) := (act s a).map Prod.snd

/-- What an action can do: when it is possible, the futures it reads and the program after it. -/
inductive Acts (s : Program V) : Act V → List Ref → Program V → Prop where
  | bound (vs : List V) : Acts s (.bound vs) [] (s.create (bound s.heap vs))
  | unbound : Acts s .unbound [] (s.create (unbound s.heap))
  | then_ (f : Ref) (b : Body V) (hf : f ∈ s.handles) :
      Acts s (.then_ f b) [f] (s.create (then_ s.heap f b))
  | except (f : Ref) (hf : f ∈ s.handles) : Acts s (.except f) [f] { s with heap := except s.heap f }
  | copy (f : Ref) (hf : f ∈ s.handles) : Acts s (.copy f) [] { s with handles := f :: s.handles }
  | drop (f : Ref) (hf : f ∈ s.handles) :
      Acts s (.drop f) [] { s with handles := s.handles.erase f }
  | run (f : Ref) (args : List V) (hf : f ∈ s.handles) :
      Acts s (.run f args) (runTo s.fuel s.heap f args).derefs
        (s.reach (runTo s.fuel s.heap f args)).2
  | accept (f : Ref) (vs : List V) (hfn : s.funs = some ⟨true, f⟩) :
      Acts s (.accept vs) (acceptfunTo s.fuel s.heap f vs).derefs
        (s.reach (acceptfunTo s.fuel s.heap f vs)).2
  | reject (fn : Funs) (es : List V) (hfn : s.funs = some fn) :
      Acts s (.reject es) (rejectfunTo s.fuel s.heap fn es).derefs
        (s.reach (rejectfunTo s.fuel s.heap fn es)).2
  | keep (fn : Funs) (hfn : s.funs = some fn) :
      Acts s (.add true) [] { s with dyn_tq := s.dyn_tq ++ [some fn] }
  | add : Acts s (.add false) [] { s with dyn_tq := s.dyn_tq ++ [none] }
  | body (f : Ref) (args vs : List V) (b : Body V) (rest : List (Frame V))
      (hst : s.stack = .call (.body f args) :: rest)
      (hb : (s.heap[f]?).map Object.kind = some (.body b)) :
      Acts s (.ret vs) (runEnd s.fuel s.heap f vs b).derefs
        ({ s with stack := rest }.reach (runEnd s.fuel s.heap f vs b)).2
  | handler (x : Ref) (args vs : List V) (rest : List (Frame V))
      (hst : s.stack = .call (.handler x args) :: rest) : Acts s (.ret vs) [] { s with stack := rest }
  | task (fn : Option Funs) (vs : List V) (rest : List (Frame V)) (hst : s.stack = .task fn :: rest) :
      Acts s (.ret vs) [] { s with dyn_tq := s.dyn_tq.tail, stack := rest }
  | idle (hq : s.dyn_tq = []) : Acts s .run_one [] s
  | fire (t : Option Funs) (q : List (Option Funs)) (hq : s.dyn_tq = t :: q)
      (hn : ¬ s.stack.any Frame.isTask = true) :
      Acts s .run_one [] { s with stack := .task t :: s.stack }

theorem act_cases {s s' : Program V} {a : Act V} {ds : List Ref} (ha : act s a = some (ds, s')) :
    Acts s a ds s' := by
  cases a with
  | bound vs =>
    cases ha
    exact .bound vs
  | unbound =>
    cases ha
    exact .unbound
  | then_ f b =>
    obtain ⟨hf, he⟩ := Option.ite_none_right_eq_some.mp ha
    cases he
    exact .then_ f b hf
  | except f =>
    obtain ⟨hf, he⟩ := Option.ite_none_right_eq_some.mp ha
    cases he
    exact .except f hf
  | copy f =>
    obtain ⟨hf, he⟩ := Option.ite_none_right_eq_some.mp ha
    cases he
    exact .copy f hf
  | drop f =>
    obtain ⟨hf, he⟩ := Option.ite_none_right_eq_some.mp ha
    cases he
    exact .drop f hf
  | run f args =>
    obtain ⟨hf, he⟩ := Option.ite_none_right_eq_some.mp ha
    cases he
    exact .run f args hf
  | accept vs =>
    simp only [act] at ha
    split at ha
    · next f hfn =>
      cases ha
      exact .accept f vs hfn
    · cases ha
  | reject es =>
    simp only [act] at ha
    split at ha
    · next fn hfn =>
      cases ha
      exact .reject fn es hfn
    · cases ha
  | add keep =>
    cases keep with
    | false =>
      cases ha
      exact .add
    | true =>
      simp only [act] at ha
      split at ha
      · next fn hfn =>
        cases ha
        exact .keep fn hfn
      · cases ha
  | ret vs =>
    simp only [act] at ha
    split at ha
    · cases ha
    · next f args rest hst =>
      split at ha
      · next b hb =>
        cases ha
        exact .body f args vs b rest hst hb
      · cases ha
    · next x args rest hst =>
      cases ha
      exact .handler x args vs rest hst
    · next fn rest hst =>
      cases ha
      exact .task fn vs rest hst
  | run_one =>
    simp only [act] at ha
    split at ha
    · next hq =>
      cases ha
      exact .idle hq
    · next t q hq =>
      split at ha
      · cases ha
      · next hn =>
        cases ha
        exact .fire t q hq hn

end
end Future
end Pharoah
