import Pharoah.Storm.FnOwners
import Pharoah.Storm.IrqTable

/-!
# Interrupts: a map from pins to callbacks

What the interrupt table is for, read off the calls alone:

* `installed as idx`   the callback of the latest enable, unless a disable has followed;
* `deliveries as`      what the deliveries among `as` must lead to, in order.

`dispatch_refines`: **after every run the table is `installed`, exactly the pins with a callback are
armed, and what interrupts have put on the queue, fired or not, is `deliveries`**.
-/

namespace Pharoah
namespace Storm

open Lts

/-! ## what the calls say -/

/-- what a call makes of the callback for an index, if it is about it -/
def Act.installs (idx : Nat) : Act → Option (Option Fn)
  | .enable_irq pin _ callback => if pin.idx = idx then some callback else none
  | .disable_irq pin => if pin.idx = idx then some none else none
  | _ => none

/-- the callback of the latest enable, unless a disable has followed -/
def installed (as : List Act) (idx : Nat) : Option Fn :=
  ((as.filterMap (Act.installs idx)).getLast?).join

/-- what a call must lead to after the calls `past` -/
def delivery (past : List Act) : Act → List (Nat × Fn)
  | .irq_callback idx => (installed past idx).toList.map fun f => (idx, f)
  | _ => []

/-- the firings that the deliveries of a run must lead to, index and callback -/
def deliveries (past : List Act) : List Act → List (Nat × Fn)
  | [] => []
  | a :: as => delivery past a ++ deliveries (past ++ [a]) as

/-- the index and the callback of a task that an interrupt has added -/
def Task.irq (t : Task) : Option (Nat × Fn) :=
  match t.origin with
  | .irq idx => some (idx, t.target)
  | _ => none

theorem installed_snoc (as : List Act) (a : Act) (idx : Nat) :
    installed (as ++ [a]) idx = (a.installs idx).getD (installed as idx) := by
  unfold installed
  rw [List.filterMap_append]
  cases ha : a.installs idx with
  | none =>
    rw [List.filterMap_cons_none ha, List.filterMap_nil, List.append_nil]
    rfl
  | some c =>
    rw [List.filterMap_cons_some ha, List.filterMap_nil, List.getLast?_concat]
    rfl

theorem deliveries_snoc (past as : List Act) (a : Act) :
    deliveries past (as ++ [a]) = deliveries past as ++ delivery (past ++ as) a := by
  induction as generalizing past with
  | nil =>
    show delivery past a ++ [] = delivery (past ++ []) a
    rw [List.append_nil, List.append_nil]
  | cons b as ih =>
    show delivery past b ++ deliveries (past ++ [b]) (as ++ [a]) = _
    rw [ih, List.append_assoc, List.singleton_append]
    show _ = (delivery past b ++ deliveries (past ++ [b]) as) ++ _
    rw [List.append_assoc]

/-! ## pins and the calls about them -/

/-- Pins that have an entry each, and are different for the kernel. -/
structure Slotted (ps : List Pin) : Prop where
  entry : ∀ p ∈ ps, p.idx < irq_entries
  idx : ∀ p ∈ ps, ∀ q ∈ ps, p.idx = q.idx → p = q
  spec : ∀ p ∈ ps, ∀ q ∈ ps, p.spec = q.spec → p = q

/-- the callback that a pin is enabled with -/
def Act.enables : Act → Option (Option Fn)
  | .enable_irq _ _ callback => some callback
  | _ => none

/-- the index that is delivered for -/
def Act.index : Act → Option Nat
  | .irq_callback idx => some idx
  | _ => none

/-- A call that is about one of the pins and enables none with null, or delivers for an entry. -/
structure Act.About (ps : List Pin) (a : Act) : Prop where
  pin : ∀ p ∈ a.pin, p ∈ ps
  callback : a.enables ≠ some none
  entry : ∀ idx ∈ a.index, idx < irq_entries

instance (ps : List Pin) (a : Act) : Decidable (a.About ps) :=
  decidable_of_iff ((∀ p ∈ a.pin, p ∈ ps) ∧ a.enables ≠ some none ∧ ∀ idx ∈ a.index, idx < irq_entries)
    ⟨fun h => ⟨h.1, h.2.1, h.2.2⟩, fun h => ⟨h.pin, h.callback, h.entry⟩⟩

namespace Gpio
variable {g : Gpio} {pin : Pin} {spec : Nat}

/-- a disable disarms a pin that has a callback, and leaves the others armed as they were -/
theorem disable_irq_armed (h : (g.armed pin.spec).isSome = (g.irq_ptrs pin.idx).isSome) :
    (g.disable_irq pin).armed pin.spec = none := by
  unfold disable_irq
  split
  · exact Function.update_self ..
  · next hn =>
    rw [hn] at h
    exact Option.not_isSome_iff_eq_none.mp (by rw [h]; exact Bool.false_ne_true)

theorem disable_irq_armed_ne (hs : spec ≠ pin.spec) : (g.disable_irq pin).armed spec = g.armed spec := by
  unfold disable_irq
  split
  · exact Function.update_of_ne hs ..
  · rfl

theorem enable_irq_armed (edge : Nat) (callback : Option Fn) :
    (g.enable_irq pin edge callback).armed pin.spec = some (edge, pin.idx) := Function.update_self ..

theorem enable_irq_armed_ne (hs : spec ≠ pin.spec) (edge : Nat) (callback : Option Fn) :
    (g.enable_irq pin edge callback).armed spec = g.armed spec := by
  show Function.update (g.disable_irq pin).armed pin.spec _ spec = _
  rw [Function.update_of_ne hs, disable_irq_armed_ne hs]

theorem irq_callback_armed (idx : Nat) : (g.irq_callback idx).1.armed = g.armed := by
  unfold irq_callback
  split
  · split <;> rfl
  · rfl

/-- what a delivery for an entry adds to the queue -/
theorem irq_callback_eq {idx : Nat} (h : idx < irq_entries) : (g.irq_callback idx).2 = g.irq_ptrs idx := by
  have hle : idx ≤ 20 := Nat.le_of_lt h
  unfold irq_callback
  rw [if_pos hle]
  split
  · next f hf => exact hf.symm
  · next hn => exact hn.symm

end Gpio

/-! ## one step -/

section
variable {ps : List Pin} {w w' : World} {a : Act}

/-- a step about one pin leaves the entries and the arming of the others alone -/
theorem other_pin (hps : Slotted ps) (ha : a.About ps) (hs : w.step a = some w') {p : Pin} (hp : p ∈ ps)
    (hne : a.pin ≠ some p) :
    w'.gpio.irq_ptrs p.idx = w.gpio.irq_ptrs p.idx ∧ w'.gpio.armed p.spec = w.gpio.armed p.spec := by
  have apart : ∀ q, a.pin = some q → p.idx ≠ q.idx ∧ p.spec ≠ q.spec := by
    intro q hq
    have hqs : q ∈ ps := ha.pin q hq
    exact ⟨fun h => hne (hps.idx p hp q hqs h ▸ hq), fun h => hne (hps.spec p hp q hqs h ▸ hq)⟩
  cases a with
  | enable_irq q edge callback =>
    cases World.step_cases hs
    obtain ⟨hi, hsp⟩ := apart q rfl
    refine ⟨?_, Gpio.enable_irq_armed_ne hsp edge callback⟩
    show (w.gpio.enable_irq q edge callback).irq_ptrs p.idx = _
    rw [Gpio.enable_irq_ptrs, Function.update_of_ne hi]
  | disable_irq q =>
    cases World.step_cases hs
    obtain ⟨hi, hsp⟩ := apart q rfl
    refine ⟨?_, Gpio.disable_irq_armed_ne hsp⟩
    show (w.gpio.disable_irq q).irq_ptrs p.idx = _
    rw [Gpio.disable_irq_ptrs, Function.update_of_ne hi]
  | irq_callback idx =>
    cases hs
    refine ⟨?_, ?_⟩
    · show (w.gpio.irq_callback idx).1.irq_ptrs p.idx = _
      rw [Gpio.irq_callback_ptrs]
    · show (w.gpio.irq_callback idx).1.armed p.spec = _
      rw [Gpio.irq_callback_armed]
  | _ =>
    rw [gpio_other hs rfl (fun idx => by simp)]
    exact ⟨rfl, rfl⟩

/-- **The table after a step** is what the call installs. -/
theorem table_step (hs : w.step a = some w') (idx : Nat) :
    w'.gpio.irq_ptrs idx = (a.installs idx).getD (w.gpio.irq_ptrs idx) := by
  have upd : ∀ (q : Pin) (c : Option Fn), Function.update w.gpio.irq_ptrs q.idx c idx =
      (if q.idx = idx then some c else none).getD (w.gpio.irq_ptrs idx) := by
    intro q c
    by_cases hq : q.idx = idx
    · rw [if_pos hq, ← hq, Function.update_self]
      rfl
    · rw [if_neg hq, Function.update_of_ne (Ne.symm hq)]
      rfl
  cases a with
  | enable_irq q edge callback =>
    cases World.step_cases hs
    show (w.gpio.enable_irq q edge callback).irq_ptrs idx = _
    rw [Gpio.enable_irq_ptrs]
    exact upd q callback
  | disable_irq q =>
    cases World.step_cases hs
    show (w.gpio.disable_irq q).irq_ptrs idx = _
    rw [Gpio.disable_irq_ptrs]
    exact upd q none
  | irq_callback i =>
    cases hs
    show (w.gpio.irq_callback i).1.irq_ptrs idx = _
    rw [Gpio.irq_callback_ptrs]
    rfl
  | _ =>
    rw [gpio_other hs rfl (fun idx => by simp)]
    rfl

/-- **The queue after a step**: a delivery adds the callback of the entry. -/
theorem queue_step (ha : a.About ps) (hs : w.step a = some w') {past : List Act}
    (ht : ∀ idx, w.gpio.irq_ptrs idx = installed past idx) :
    w'.tq.added.filterMap Task.irq = w.tq.added.filterMap Task.irq ++ delivery past a := by
  by_cases hc : ∃ idx, a = .irq_callback idx
  · obtain ⟨idx, rfl⟩ := hc
    cases hs
    have hf := Gpio.irq_callback_eq (g := w.gpio) (ha.entry idx rfl)
    rw [ht idx] at hf
    show _ = _ ++ (installed past idx).toList.map fun f => (idx, f)
    cases hi : installed past idx with
    | none =>
      rw [World.irq_callback_none (hf.trans hi)]
      exact (List.append_nil _).symm
    | some f =>
      rw [World.irq_callback_some (hf.trans hi)]
      show (w.tq.added ++ [_]).filterMap Task.irq = _
      rw [List.filterMap_append]
      rfl
  · have hd : delivery past a = [] := by
      cases a with
      | irq_callback idx => exact absurd ⟨idx, rfl⟩ hc
      | _ => rfl
    rw [hd, List.append_nil]
    have hturn := step_turn hs
    generalize w.tq = q, w.stack = st, w'.tq = q', w'.stack = st' at hturn
    cases hturn with
    | add f o hadd _ =>
      show (q.added ++ [_]).filterMap Task.irq = _
      have hno : Task.irq ⟨f, o, q.added.length⟩ = none := by
        cases o with
        | irq idx => exact absurd ⟨idx, (irq_adds hadd).1⟩ hc
        | _ => rfl
      rw [List.filterMap_append, List.filterMap_cons_none hno, List.filterMap_nil, List.append_nil]
    | _ => rfl

/-- The kernel has a pin armed, with its index, exactly while its entry is set. -/
structure Armed (ps : List Pin) (g : Gpio) : Prop where
  armed : ∀ p ∈ ps, (g.armed p.spec).isSome = (g.irq_ptrs p.idx).isSome
  index : ∀ p ∈ ps, ∀ e ∈ g.armed p.spec, e.2 = p.idx

theorem Armed.step (h : Armed ps w.gpio) (hps : Slotted ps) (ha : a.About ps) (hs : w.step a = some w') :
    Armed ps w'.gpio := by
  -- the pin that the call is about has both or neither, the others are left alone
  have split : (∀ p ∈ a.pin, ((w'.gpio.armed p.spec).isSome = (w'.gpio.irq_ptrs p.idx).isSome ∧
      ∀ e ∈ w'.gpio.armed p.spec, e.2 = p.idx)) → Armed ps w'.gpio := by
    intro hpin
    have both : ∀ p ∈ ps, (w'.gpio.armed p.spec).isSome = (w'.gpio.irq_ptrs p.idx).isSome ∧
        ∀ e ∈ w'.gpio.armed p.spec, e.2 = p.idx := by
      intro p hp
      by_cases hap : a.pin = some p
      · exact hpin p hap
      · obtain ⟨ht, har⟩ := other_pin hps ha hs hp hap
        rw [ht, har]
        exact ⟨h.armed p hp, h.index p hp⟩
    exact ⟨fun p hp => (both p hp).1, fun p hp => (both p hp).2⟩
  apply split
  intro p hap
  have hp : p ∈ ps := ha.pin p hap
  cases a with
  | enable_irq q edge callback =>
    cases hap
    cases World.step_cases hs
    show ((w.gpio.enable_irq p edge callback).armed p.spec).isSome =
      ((w.gpio.enable_irq p edge callback).irq_ptrs p.idx).isSome ∧
      ∀ e ∈ (w.gpio.enable_irq p edge callback).armed p.spec, e.2 = p.idx
    rw [Gpio.enable_irq_armed, Gpio.enable_irq_ptrs, Function.update_self]
    cases callback with
    | none => exact absurd rfl ha.callback
    | some f => exact ⟨rfl, fun e he => by cases he; rfl⟩
  | disable_irq q =>
    cases hap
    cases World.step_cases hs
    show ((w.gpio.disable_irq p).armed p.spec).isSome = ((w.gpio.disable_irq p).irq_ptrs p.idx).isSome ∧
      ∀ e ∈ (w.gpio.disable_irq p).armed p.spec, e.2 = p.idx
    rw [Gpio.disable_irq_armed (h.armed p hp), Gpio.disable_irq_ptrs, Function.update_self]
    exact ⟨rfl, fun e he => by cases he⟩
  | _ => cases hap

end

/-! ## every run -/

structure Dispatched (ps : List Pin) (as : List Act) (w : World) : Prop where
  table : ∀ idx, w.gpio.irq_ptrs idx = installed as idx
  armed : Armed ps w.gpio
  queue : w.tq.added.filterMap Task.irq = deliveries [] as

theorem dispatched {ps : List Pin} (hps : Slotted ps) {as : List Act} (ha : ∀ a ∈ as, a.About ps)
    {w : World} (hr : World.runs as = some w) : Dispatched ps as w := by
  refine history (P := fun as w => (∀ a ∈ as, a.About ps) → Dispatched ps as w) (fun _ => ?_)
    (fun as u a t _ ih hs ha => ?_) hr ha
  · exact ⟨fun _ => rfl, ⟨fun _ _ => rfl, fun _ _ e he => by cases he⟩, rfl⟩
  · have h := ih fun b hb => ha b (List.mem_append_left _ hb)
    have hlast : a.About ps := ha a (List.mem_append_right _ (List.mem_singleton_self a))
    refine ⟨fun idx => ?_, h.armed.step hps hlast hs, ?_⟩
    · rw [table_step hs idx, h.table idx, installed_snoc]
    · rw [queue_step hlast hs h.table, h.queue, deliveries_snoc, List.nil_append]

/-- **Interrupt dispatch refines a map from pins to callbacks.**  In every run of calls about pins that
have an entry each: the entries are what the calls have installed, and exactly the pins with one are
armed; a step about one pin leaves the others alone; and what was fired or is still in the queue for
interrupts is, in order, what was installed at each delivery, so that it has all been fired when the
queue is empty. -/
theorem dispatch_refines (ps : List Pin) (hps : Slotted ps) (as : List Act) (ha : ∀ a ∈ as, a.About ps)
    (w : World) (hr : World.runs as = some w) :
    (∀ p ∈ ps, w.gpio.irq_ptrs p.idx = installed as p.idx ∧
      ((w.gpio.armed p.spec).isSome = true ↔ (installed as p.idx).isSome = true) ∧
      ∀ e ∈ w.gpio.armed p.spec, e.2 = p.idx) ∧
    Along World.step (fun v a => ∀ v', v.step a = some v' → ∀ p ∈ ps, a.pin ≠ some p →
      v'.gpio.irq_ptrs p.idx = v.gpio.irq_ptrs p.idx ∧ v'.gpio.armed p.spec = v.gpio.armed p.spec) {} as ∧
    (w.tq.fired ++ w.unfired).filterMap Task.irq = deliveries [] as ∧
    (w.tq.dyn_tq = [] → w.tq.fired.filterMap Task.irq = deliveries [] as) := by
  have hd := dispatched hps ha hr
  have hacc : w.tq.fired ++ w.unfired = w.tq.added := (counted hr).accounts
  have hall : (w.tq.fired ++ w.unfired).filterMap Task.irq = deliveries [] as := by
    rw [hacc]
    exact hd.queue
  refine ⟨fun p hp => ⟨hd.table p.idx, ?_, hd.armed.index p hp⟩, ?_, hall, fun hq => ?_⟩
  · rw [hd.armed.armed p hp, hd.table p.idx]
  · have hmem : Along World.step (fun _ a => a.About ps) {} as := (along_iff_mem hr).mpr ha
    exact hmem.of_invariant (I := fun _ => True) (fun _ _ _ _ _ _ => trivial)
      (fun v a _ hab v' hs p hp hne => other_pin hps hab hs hp hne) trivial
  · have hun : w.unfired = [] := by
      show (if w.stack.any Frame.isTask then w.tq.dyn_tq.tail else w.tq.dyn_tq) = []
      rw [hq, List.tail_nil, ite_self]
    rw [hun, List.append_nil] at hall
    exact hall

/-- the declared pins that have an entry -/
theorem slotted_pins : Slotted (pins.filter fun p => p.idx < irq_entries) := by
  constructor <;> decide

/-- re-enabled with another callback while a delivery is pending, then disabled, before the tasks run -/
def reenabledRun : List Act :=
  [.mkFn, .mkFn, .enable_irq .D2 1 (some 0), .enable_irq .A5 2 (some 0), .k_wait_callback,
   .irq_callback 2, .ret, .enable_irq .D2 2 (some 1), .k_wait_callback, .irq_callback 2, .irq_callback 19,
   .ret, .disable_irq .D2, .k_wait_callback, .irq_callback 2, .ret, .run_one, .ret, .run_one, .ret,
   .run_one, .ret]

theorem dispatch_reenabled : ∃ w, World.runs reenabledRun = some w ∧
    w.tq.fired.filterMap Task.irq = deliveries [] reenabledRun :=
  ⟨_, rfl, (dispatch_refines _ slotted_pins reenabledRun (by decide) _ rfl).2.2.2 rfl⟩

example : deliveries [] reenabledRun = [(2, 0), (2, 1), (19, 0)] := by decide

end Storm
end Pharoah
