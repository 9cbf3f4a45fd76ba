import Pharoah.Lib.SelfRef
import Pharoah.Storm.Parts

/-!
# I2C operations: the life of an operation

An operation owns itself from its start until its callback has returned.

* `World.completing`  the operations whose callbacks are running, the innermost first;
* `I2c.Life`          what is in progress in the kernel has not been called back, and both it and
                      what is being called back owns itself;
* `i2c_life`          **`Life` holds after every run**.
-/

namespace Pharoah
namespace Storm

open Lts

def Frame.op : Frame → Option Nat
  | .i2c t => some t
  | _ => none

/-- the operations whose callbacks are running -/
def World.completing (w : World) : List Nat := w.stack.filterMap Frame.op

/-- What a call does to the callbacks that are running. -/
def I2cOp.Calls : I2cOp → List Nat → List Nat → Prop
  | .invoke t _, st, st' => st' = t :: st
  | .finish t, st, st' => st = t :: st'
  | _, st, st' => st' = st

namespace I2c

/-- `self` of the operation is set. -/
def Holds (s : I2c) (t : Nat) : Prop := (s.ops[t]?).map Operation.self = some true

structure Life (s : I2c) (st : List Nat) : Prop where
  distinct : st.Nodup
  running : ∀ t ∈ st, s.Holds t
  pending : ∀ x ∈ s.pending, x.op ∉ st ∧ s.Holds x.op

theorem Holds.live {s : I2c} {t : Nat} (h : s.Holds t) : s.Live t := by
  obtain ⟨P, hP, hself⟩ := Option.map_eq_some_iff.mp h
  exact Or.inr ⟨P, hP, hself⟩

theorem Holds.lt {s : I2c} {t : Nat} (h : s.Holds t) : t < s.ops.length := by
  obtain ⟨P, hP, -⟩ := Option.map_eq_some_iff.mp h
  exact (List.getElem?_eq_some_iff.mp hP).1

section
variable {s s' : I2c} {st st' : List Nat}

theorem Life.init : Life {} [] := ⟨List.nodup_nil, fun _ h => (by cases h), fun _ h => (by cases h)⟩

/-- the calls that leave operations and transactions alone -/
theorem Life.of_same (h : Life s st) (ho : s'.ops = s.ops) (hp : s'.pending = s.pending) : Life s' st := by
  have hholds : ∀ t, s'.Holds t ↔ s.Holds t := by
    intro t
    unfold Holds
    rw [ho]
  refine ⟨h.distinct, fun t ht => (hholds t).mpr (h.running t ht), fun x hx => ?_⟩
  rw [hp] at hx
  exact ⟨(h.pending x hx).1, (hholds _).mpr (h.pending x hx).2⟩

theorem Life.start (h : Life s st) (dir : Dir) (address flags : Nat) (payload : Option Buf) (length : Nat)
    (accepted : Bool) : Life (s.start dir address flags payload length accepted) st := by
  have hold : ∀ {t}, s.Holds t → (s.start dir address flags payload length accepted).Holds t :=
    fun h => member_push.mpr (Or.inl h)
  refine ⟨h.distinct, fun t ht => hold (h.running t ht), fun x hx => ?_⟩
  have hnew : x ∈ s.pending ∨ x.op = s.ops.length := by
    change x ∈ (if accepted then s.pending ++ [_] else s.pending) at hx
    split at hx
    · obtain hx | hx := List.mem_append.mp hx
      · exact Or.inl hx
      · rw [List.mem_singleton.mp hx]
        exact Or.inr rfl
    · exact Or.inl hx
  obtain hx | hx := hnew
  · exact ⟨(h.pending x hx).1, hold (h.pending x hx).2⟩
  · rw [hx]
    refine ⟨fun hst => ?_, member_push.mpr (Or.inr ⟨rfl, rfl⟩)⟩
    have hlt := (h.running _ hst).lt
    omega

theorem holds_invoke (t : Nat) (status : Int) (u : Nat) :
    (((s.complete t).invoke t status)).Holds u ↔ s.Holds u := by
  unfold Holds invoke
  split
  · show ((s.ops.modify t _)[u]?).map Operation.self = _ ↔ _
    rw [member_modify]
    exact fun _ => rfl
  · exact Iff.rfl

theorem pending_invoke (t : Nat) (status : Int) :
    ((s.complete t).invoke t status).pending = s.pending.filter fun x => x.op ≠ t := by
  unfold invoke
  split <;> rfl

/-- a completion begins -/
theorem Life.invoke (h : Life s st) {t : Nat} (ht : ∃ x ∈ s.pending, x.op = t) (status : Int) :
    Life ((s.complete t).invoke t status) (t :: st) := by
  obtain ⟨x, hx, rfl⟩ := ht
  refine ⟨List.nodup_cons.mpr ⟨(h.pending x hx).1, h.distinct⟩, fun u hu => ?_, fun y hy => ?_⟩
  · rw [holds_invoke]
    obtain rfl | hu := List.mem_cons.mp hu
    · exact (h.pending x hx).2
    · exact h.running u hu
  · rw [pending_invoke] at hy
    obtain ⟨hy, hne⟩ := List.mem_filter.mp hy
    obtain ⟨hno, hself⟩ := h.pending y hy
    refine ⟨fun hm => ?_, (holds_invoke ..).mpr hself⟩
    obtain hm | hm := List.mem_cons.mp hm
    · exact of_decide_eq_true hne hm
    · exact hno hm

theorem holds_finish {t u : Nat} (hu : u ≠ t) : (s.finish t).Holds u ↔ s.Holds u := by
  unfold Holds
  show ((s.ops.modify t _)[u]?).map Operation.self = _ ↔ _
  rw [List.getElem?_modify_ne _ _ fun h => hu h.symm]

/-- a completion ends -/
theorem Life.finish {t : Nat} (h : Life s (t :: st)) : Life (s.finish t) st := by
  obtain ⟨hno, hd⟩ := List.nodup_cons.mp h.distinct
  refine ⟨hd, fun u hu => ?_, fun x hx => ?_⟩
  · have hne : u ≠ t := fun he => hno (he ▸ hu)
    exact (holds_finish hne).mpr (h.running u (List.mem_cons_of_mem _ hu))
  · obtain ⟨hout, hself⟩ := h.pending x hx
    have hne : x.op ≠ t := fun he => hout (he ▸ List.mem_cons_self ..)
    exact ⟨fun hm => hout (List.mem_cons_of_mem _ hm), (holds_finish hne).mpr hself⟩

/-- **One call** keeps it. -/
theorem Life.step (h : Life s st) {o : I2cOp} (hs : s.step o = some s') (hc : o.Calls st st') :
    Life s' st' := by
  cases step_cases hs with
  | mkbuf => exact hc ▸ h.of_same rfl rfl
  | freebuf b hb => exact hc ▸ h.of_same rfl rfl
  | write address flags payload length accepted hp => exact hc ▸ h.start ..
  | read address flags target length accepted hp => exact hc ▸ h.start ..
  | copy t ht => exact hc ▸ h.of_same rfl rfl
  | drop t ht => exact hc ▸ h.of_same rfl rfl
  | invoke t status ht => exact hc ▸ h.invoke ht status
  | finish t =>
    change st = t :: st' at hc
    subst hc
    exact h.finish

end
end I2c

/-! ## the operations of a program -/

section
variable {w w' : World}

theorem Frame.sees_op : Sees Frame.op := ⟨fun _ => rfl, rfl, fun _ => rfl⟩

/-- other steps neither begin nor end a completion -/
theorem completing_other {a : Act} (hs : w.step a = some w') (ha : a.i2cOp = none) :
    w'.completing = w.completing := by
  unfold World.completing
  obtain h | ⟨id, recv, addrstr, s, f, -, -, h⟩ | ⟨-, s, f, p, h⟩ := visible_step Frame.sees_op hs ha
  · exact h
  · rw [h]
    rfl
  · rw [h]
    rfl

theorem completing_i2c {o : I2cOp} (hs : w.step (.i2c o) = some w') :
    o.Calls w.completing w'.completing := by
  cases World.step_cases hs with
  | i2c _ s hm hi =>
    cases o with
    | finish t =>
      show w.stack.filterMap Frame.op = t :: w.stack.tail.filterMap Frame.op
      rw [World.mayI2c_finish hm]
      rfl
    | _ => rfl

theorem life_step {a : Act} (h : w.i2c.Life w.completing) (hs : w.step a = some w') :
    w'.i2c.Life w'.completing := by
  cases hb : a.i2cOp with
  | none =>
    rw [(step_frames hs).i2c hb, completing_other hs hb]
    exact h
  | some o =>
    cases a with
    | i2c o' => exact h.step (step_i2c hs) (completing_i2c hs)
    | _ => cases hb

/-- **Every run keeps it**: an operation that the kernel has in progress, or whose callback is running,
owns itself. -/
theorem i2c_life {as : List Act} (hr : World.runs as = some w) : w.i2c.Life w.completing :=
  Lts.invariant (I := fun w : World => w.i2c.Life w.completing) (fun _ _ _ h hs => life_step h hs)
    I2c.Life.init hr

end
end Storm
end Pharoah
