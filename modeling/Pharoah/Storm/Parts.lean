import Pharoah.Storm.World

/-!
# The parts of a program

A step of a program is a step of at most one of its parts; a run of a program is therefore a run of
its timers, one of its sockets and one of its I2C operations.

* `step_frames`    the parts that a step leaves alone;
* `visible_step`   what a step of another part does to the packets and completions on the stack.
-/

namespace Pharoah
namespace Storm

def Act.timerOp : Act → Option TimerOp
  | .timer o => some o
  | _ => none

def Act.udpOp : Act → Option UdpOp
  | .udp o => some o
  | _ => none

def Act.i2cOp : Act → Option I2cOp
  | .i2c o => some o
  | _ => none

/-- The parts that a step leaves alone. -/
structure Frames (a : Act) (w w' : World) : Prop where
  timers : a.timerOp = none → w'.timers = w.timers
  udp : a.udpOp = none → w'.udp = w.udp
  i2c : a.i2cOp = none → w'.i2c = w.i2c

section
variable {w w' : World}

theorem Frames.of_eq {a : Act} (ht : w'.timers = w.timers) (hu : w'.udp = w.udp)
    (hi : w'.i2c = w.i2c) : Frames a w w' := ⟨fun _ => ht, fun _ => hu, fun _ => hi⟩

theorem step_frames {a : Act} (hs : w.step a = some w') : Frames a w w' := by
  have fire : ∀ a, Frames a w w.fireFront := by
    intro a
    obtain ⟨q, st, hq⟩ := w.fireFront_control
    rw [hq]
    exact .of_eq rfl rfl rfl
  cases World.step_cases hs with
  | timer o ts hm ht => exact ⟨fun h => (by cases h), fun _ => rfl, fun _ => rfl⟩
  | udp o u hm hu => exact ⟨fun _ => rfl, fun h => (by cases h), fun _ => rfl⟩
  | i2c o s hm hi => exact ⟨fun _ => rfl, fun _ => rfl, fun h => (by cases h)⟩
  | run_one hc hn => exact fire _
  | fire rest hst => exact fire _
  | _ => exact .of_eq rfl rfl rfl

theorem step_timer {o : TimerOp} (hs : w.step (.timer o) = some w') :
    w.timers.step o = some w'.timers := by
  cases World.step_cases hs with
  | timer _ ts hm ht => exact ht

theorem step_udp {o : UdpOp} (hs : w.step (.udp o) = some w') : w.udp.step o = some w'.udp := by
  cases World.step_cases hs with
  | udp _ u hm hu => exact hu

theorem step_i2c {o : I2cOp} (hs : w.step (.i2c o) = some w') : w.i2c.step o = some w'.i2c := by
  cases World.step_cases hs with
  | i2c _ s hm hi => exact hi

/-! ## the stack -/

/-- `g` sees only packets and completions. -/
structure Sees {β : Type} (g : Frame → Option β) : Prop where
  scheduler : ∀ b, g (.scheduler b) = none
  wait : g .wait = none
  task : ∀ t, g (.task t) = none

section
variable {β : Type} {g : Frame → Option β}

theorem fireFront_visible (h : Sees g) (w : World) : w.fireFront.stack.filterMap g = w.stack.filterMap g := by
  unfold World.fireFront
  split
  · rfl
  · exact List.filterMap_cons_none (h.task _)

/-- What a step that is no call on an operation does to the packets and completions on the stack:
nothing, or a delivery to a socket, or the return from one. -/
theorem visible_step (h : Sees g) {a : Act} (hs : w.step a = some w') (ha : a.i2cOp = none) :
    w'.stack.filterMap g = w.stack.filterMap g ∨
      (∃ id recv addrstr s f, a = .udp_callback id recv addrstr ∧ w.udp.receiver id = some (s, f) ∧
        w'.stack = .udp s f (packet recv addrstr) :: w.stack) ∨
      (a = .ret ∧ ∃ s f p, w.stack = .udp s f p :: w'.stack) := by
  cases World.step_cases hs with
  | i2c o s hm hi => cases ha
  | run_one hc hn => exact Or.inl (fireFront_visible h w)
  | scheduler hc hn => exact Or.inl (List.filterMap_cons_none (h.scheduler _))
  | k_wait_callback hc => exact Or.inl (List.filterMap_cons_none h.wait)
  | idle rest hst hq =>
    rw [hst, List.filterMap_cons_none (h.scheduler _), List.filterMap_cons_none (h.scheduler _)]
    exact Or.inl rfl
  | fire rest hst => exact Or.inl (fireFront_visible h w)
  | sleep rest hst => exact Or.inl (List.filterMap_cons_none h.wait)
  | pop t rest hst =>
    rw [hst]
    exact Or.inl (List.filterMap_cons_none (h.task _)).symm
  | wake b rest hst =>
    rw [hst, List.filterMap_cons_none h.wait, List.filterMap_cons_none (h.scheduler _),
      List.filterMap_cons_none (h.scheduler _)]
    exact Or.inl rfl
  | waited rest hst hno =>
    rw [hst]
    exact Or.inl (List.filterMap_cons_none h.wait).symm
  | received s f p rest hst => exact Or.inr (Or.inr ⟨rfl, s, f, p, hst⟩)
  | udp_callback id recv addrstr s f hr =>
    exact Or.inr (Or.inl ⟨id, recv, addrstr, s, f, rfl, hr, rfl⟩)
  | _ => exact Or.inl rfl

end

/-! ## runs -/

theorem timers_run {as : List Act} (hr : Lts.exec World.step w as = some w') :
    Lts.exec Timers.step w.timers (as.filterMap Act.timerOp) = some w'.timers := by
  refine Lts.project World.timers Act.timerOp (fun s a s' b hs hb => ?_)
    (fun s a s' hs hb => (step_frames hs).timers hb) hr
  cases a with
  | timer o =>
    cases hb
    exact step_timer hs
  | _ => cases hb

theorem udp_run {as : List Act} (hr : Lts.exec World.step w as = some w') :
    Lts.exec Udp.step w.udp (as.filterMap Act.udpOp) = some w'.udp := by
  refine Lts.project World.udp Act.udpOp (fun s a s' b hs hb => ?_)
    (fun s a s' hs hb => (step_frames hs).udp hb) hr
  cases a with
  | udp o =>
    cases hb
    exact step_udp hs
  | _ => cases hb

theorem i2c_run {as : List Act} (hr : Lts.exec World.step w as = some w') :
    Lts.exec I2c.step w.i2c (as.filterMap Act.i2cOp) = some w'.i2c := by
  refine Lts.project World.i2c Act.i2cOp (fun s a s' b hs hb => ?_)
    (fun s a s' hs hb => (step_frames hs).i2c hb) hr
  cases a with
  | i2c o =>
    cases hb
    exact step_i2c hs
  | _ => cases hb

end
end Storm
end Pharoah
