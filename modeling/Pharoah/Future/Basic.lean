import Pharoah.Lib.Prog

/-!
# Futures: the objects and the calls that link them

The classes of `pctest/libstorm.h`, with types erased: a value is a `V`, an argument pack is a
`List V`, and a heap is the list of the futures created so far, a `shared_ptr` being the index
of its object.

* `Stmt`, `Body`   what user code does with the accept and reject functions it was given, and
                   the five styles in which a body can be written;
* `Future`         one `Future<in, out, err, mode>` object with its closures;
* `bound`, `unbound`, `then_`, `except`   the calls that create and link futures.

A closure that captures a raw `this` is represented by the object it captures: `nxtAccept` holds
the future whose `run` it calls, `nxtForward` says whether it calls `errbody` or forwards.
-/

namespace Pharoah
namespace Future

/-- a pointer to a future: its index in the heap -/
abbrev Ref := Nat

/-- What a C++ move leaves behind in its source. -/
class Movable (V : Type) where
  movedFrom : V → V

/-! ## user code -/

/-- What user code does with the functions it was given: call the accept function (if the style
hands one out), call the reject function, or put a closure over them on the task queue. -/
inductive Stmt (V : Type) (acc : Bool) where
  | accept (h : acc = true) (vs : List V)
  | reject (es : List V)
  | add (task : List (Stmt V acc))

/-- the return type of a body that returns: a `Multi`, a single value, or `void` -/
inductive Ret where
  | multi
  | single
  | void
deriving DecidableEq

/-- A body, by the functions it takes: `ACC_REJ`, then `REJ_MULTI` and `REJ_SINGLE`, then `MULTI`
and `SINGLE`.  The second component of `rej` and the result of `noFun` are the returned values
(nothing reads them when the body returns `void`). -/
inductive Body (V : Type) where
  | accRej (code : List V → List (Stmt V true))
  | rej (r : Ret) (code : List V → List (Stmt V false) × List V)
  | noFun (r : Ret) (code : List V → List V)

def Body.hasRej {V : Type} : Body V → Bool
  | .rej _ _ => true
  | _ => false

/-! ## objects -/

/-- `BOUND`, `UNBOUND`, the five styles with a body, and `EXCEPT` with its `errbody` -/
inductive Kind (V : Type) where
  | bound
  | unbound
  | body (b : Body V)
  | except

/-- A closure over `this` that takes no arguments: `this->errbody()`, or the one that passes the
call on to `this->nxtForward`. -/
inductive Fwd where
  | errbody (this : Ref)
  | forward (this : Ref)
deriving DecidableEq

/-- One future. -/
structure Object (V : Type) where
  kind : Kind V
  value : List V := []
  nxt : Option Ref := none
  nxtF : Option Ref := none
  nxtAccept : Option Ref := none
  nxtReject : Option Ref := none
  nxtForward : Option Fwd := none
  errored : Bool := false

abbrev Heap (V : Type) := List (Object V)

section
variable {V : Type}

/-- the closure `bindaccept` stores: it calls `this->run(args)` -/
def bindaccept (this : Ref) : Ref := this

/-- the closure `bindforward` stores: an `EXCEPT` future runs its `errbody`, any other one calls
its own `nxtForward` if that is set -/
def bindforward (k : Kind V) (this : Ref) : Fwd :=
  match k with
  | .except => .errbody this
  | _ => .forward this

/-- `bound(vs...)`: the new future is `h.length` -/
def bound (h : Heap V) (vs : List V) : Heap V := h ++ [{ kind := .bound, value := vs }]

/-- `unbound<...>()` -/
def unbound (h : Heap V) : Heap V := h ++ [{ kind := .unbound }]

/-- `f->then(b)` -/
def then_ (h : Heap V) (f : Ref) (b : Body V) : Heap V :=
  let nxtfuture := h.length
  h.modify f (fun F =>
    { F with
      nxtAccept := some (bindaccept nxtfuture)
      nxtForward := some (bindforward (.body b) nxtfuture)
      nxt := some nxtfuture }) ++ [{ kind := .body b }]

/-- `f->except(handler)` -/
def except (h : Heap V) (f : Ref) : Heap V :=
  let nxtfuture := h.length
  h.modify f (fun F =>
    { F with
      nxtForward := some (bindforward (V := V) .except nxtfuture)
      nxtF := some nxtfuture }) ++ [{ kind := .except }]

@[simp] theorem length_bound (h : Heap V) (vs : List V) : (bound h vs).length = h.length + 1 := by
  simp [bound]

@[simp] theorem length_unbound (h : Heap V) : (unbound h).length = h.length + 1 := by
  simp [unbound]

@[simp] theorem length_then_ (h : Heap V) (f : Ref) (b : Body V) :
    (then_ h f b).length = h.length + 1 := by simp [then_]

@[simp] theorem length_except (h : Heap V) (f : Ref) : (except h f).length = h.length + 1 := by
  simp [except]

theorem get_new (h : Heap V) (F : Object V) : (h ++ [F])[h.length]? = some F := by simp

theorem get_old (h : Heap V) (F : Object V) {r : Ref} (hr : r < h.length) :
    (h ++ [F])[r]? = h[r]? := List.getElem?_append_left hr

/-- what `then` does to the future it is called on -/
theorem get_then_self {h : Heap V} {f : Ref} {F : Object V} (b : Body V) (hF : h[f]? = some F) :
    (then_ h f b)[f]? = some { F with nxtAccept := some h.length
                                      nxtForward := some (.forward h.length)
                                      nxt := some h.length } := by
  have hf : f < h.length := (List.getElem?_eq_some_iff.mp hF).1
  rw [then_, List.getElem?_append_left (by simpa using hf), List.getElem?_modify_eq, hF]
  rfl

theorem get_then_new (h : Heap V) (f : Ref) (b : Body V) :
    (then_ h f b)[h.length]? = some { kind := .body b } := by
  have := get_new (h.modify f (fun F => { F with nxtAccept := some (bindaccept h.length)
                                                 nxtForward := some (bindforward (.body b) h.length)
                                                 nxt := some h.length })) { kind := .body b }
  rwa [List.length_modify] at this

theorem get_then_other {h : Heap V} {f r : Ref} (b : Body V) (hr : r < h.length) (hne : f ≠ r) :
    (then_ h f b)[r]? = h[r]? := by
  rw [then_, List.getElem?_append_left (by simpa using hr), List.getElem?_modify_ne _ _ hne]

/-- what `except` does to the future it is called on -/
theorem get_except_self {h : Heap V} {f : Ref} {F : Object V} (hF : h[f]? = some F) :
    (except h f)[f]? = some { F with nxtForward := some (.errbody h.length)
                                     nxtF := some h.length } := by
  have hf : f < h.length := (List.getElem?_eq_some_iff.mp hF).1
  rw [except, List.getElem?_append_left (by simpa using hf), List.getElem?_modify_eq, hF]
  rfl

theorem get_except_new (h : Heap V) (f : Ref) : (except h f)[h.length]? = some { kind := .except } := by
  have := get_new (h.modify f (fun F => { F with nxtForward := some (bindforward (V := V) .except h.length)
                                                 nxtF := some h.length })) { kind := .except }
  rwa [List.length_modify] at this

theorem get_except_other {h : Heap V} {f r : Ref} (hr : r < h.length) (hne : f ≠ r) :
    (except h f)[r]? = h[r]? := by
  rw [except, List.getElem?_append_left (by simpa using hr), List.getElem?_modify_ne _ _ hne]

end

end Future
end Pharoah
