import Pharoah.Storm.I2cLife
import Pharoah.Storm.SocketLife
import Pharoah.Storm.TimerLife

/-!
# Refused registrations

A timer and an operation set up their circular reference whatever the kernel answers; a socket looks at
the answer first.

* `Pinning`         what may be asked of objects of one kind: only registered ones own themselves, and
                    only registered ones outlive their handles;
* `PinsRegistered`  it holds of timers, sockets and operations;
* `Act.Accepted`    the condition: the kernel refuses no timer and no transaction.

`pins_registered_iff`: **only registered objects own themselves throughout a run if and only if every
call is `Accepted`**; what happens to sockets does not matter.
-/

namespace Pharoah
namespace Storm

open Lts

/-- Only registered objects own themselves, and one that is not registered has been released when no
handle of it is left. -/
structure Pinning (owns registered handled live : Nat → Prop) : Prop where
  owns : ∀ t, owns t → registered t
  freed : ∀ t, ¬ registered t → ¬ handled t → ¬ live t

/-- `self` of the timer is set. -/
def Timers.Owns (s : Timers) (t : Nat) : Prop := (s.objs[t]?).map Timer.self = some true

/-- The kernel has a registration for the timer. -/
def Timers.InKernel (s : Timers) (t : Nat) : Prop := ∃ id, s.table id = some t

/-- The kernel has the pointer of the socket. -/
def Udp.InKernel (u : Udp) (t : Nat) : Prop := ∃ id, u.receivers id = some t

/-- The kernel has the transaction of the operation in progress, or its completion is being delivered. -/
def World.InProgress (w : World) (t : Nat) : Prop :=
  (∃ x ∈ w.i2c.pending, x.op = t) ∨ t ∈ w.completing

/-- Only registered objects own themselves. -/
structure PinsRegistered (w : World) : Prop where
  timers : Pinning w.timers.Owns w.timers.InKernel (· ∈ w.timers.handles) w.timers.Live
  sockets : Pinning w.udp.IsOpen w.udp.InKernel (· ∈ w.udp.handles) w.udp.Live
  ops : Pinning w.i2c.Holds w.InProgress (· ∈ w.i2c.handles) w.i2c.Live

/-- The kernel does not refuse the transaction. -/
def I2cOp.Granted : I2cOp → Prop
  | .write _ _ _ _ accepted => accepted = true
  | .read _ _ _ _ accepted => accepted = true
  | _ => True

/-- The kernel refuses no timer and no transaction. -/
def Act.Accepted : Act → Prop
  | .timer o => o.Granted
  | .i2c o => o.Granted
  | _ => True

instance (o : I2cOp) : Decidable o.Granted := by
  cases o <;> unfold I2cOp.Granted <;> infer_instance

instance (a : Act) : Decidable a.Accepted := by
  cases a <;> unfold Act.Accepted <;> infer_instance

/-- The second part follows from the first. -/
theorem pinning_iff {α : Type} {self : α → Bool} {handles : List Nat} {objs : List α}
    {registered : Nat → Prop} :
    Pinning (fun t => (objs[t]?).map self = some true) registered (· ∈ handles) (Kept self handles objs) ↔
      ∀ t, (objs[t]?).map self = some true → registered t := by
  refine ⟨fun h => h.owns, fun h => ⟨h, fun t hreg hh hlive => ?_⟩⟩
  obtain hl | ⟨x, hx, hself⟩ := hlive
  · exact hh hl
  · exact hreg (h t (Option.map_eq_some_iff.mpr ⟨x, hx, hself⟩))

/-! ## timers -/

namespace Timers
variable {s s' : Timers}

theorem owns_iff {t : Nat} : s.Owns t ↔ ∃ id, s.claim t = some id := by
  unfold Owns
  rw [Option.map_eq_some_iff]
  constructor
  · intro h
    obtain ⟨T, hT, hself⟩ := h
    exact ⟨T.id, claim_eq.mpr ⟨T, hT, hself, rfl⟩⟩
  · intro h
    obtain ⟨id, h⟩ := h
    obtain ⟨T, hT, hself, -⟩ := claim_eq.mp h
    exact ⟨T, hT, hself⟩

theorem held_iff (h : Sound s) : Held s.table s.claim ↔ ∀ t, s.Owns t → s.InKernel t := by
  rw [h.backed.held_iff]
  refine forall_congr' fun t => ?_
  rw [owns_iff, forall_exists_index]
  exact Iff.rfl

/-- a timer that is refused claims an id that nobody has given it -/
theorem not_held_refused (h : Sound s) (periodic : Bool) (ticks : Nat) (callback : Fn) :
    ¬ Held (s.create periodic ticks callback none).table (s.create periodic ticks callback none).claim := by
  intro hh
  rw [claim_create, table_refused] at hh
  have htab := hh s.objs.length _ (Function.update_self ..)
  exact h.backed.absent claims_new htab

/-- **One call**: every timer that owns itself is registered afterwards iff no timer is refused. -/
theorem held_step (h : Sound s) (hh : Held s.table s.claim) {o : TimerOp} (hs : s.step o = some s') :
    Held s'.table s'.claim ↔ o.Granted := by
  cases step_cases hs with
  | once ticks callback reply hg =>
    cases reply with
    | none => exact ⟨fun hno => absurd hno (not_held_refused h false ticks callback), fun hno => absurd rfl hno⟩
    | some i => exact ⟨fun _ => (by simp [TimerOp.Granted]), fun _ => held_create hh hg false ticks callback⟩
  | periodic ticks callback reply hg =>
    cases reply with
    | none => exact ⟨fun hno => absurd hno (not_held_refused h true ticks callback), fun hno => absurd rfl hno⟩
    | some i => exact ⟨fun _ => (by simp [TimerOp.Granted]), fun _ => held_create hh hg true ticks callback⟩
  | cancel t ht => exact iff_of_true (held_cancel hh t) trivial
  | copy t ht => exact iff_of_true hh trivial
  | drop t ht => exact iff_of_true hh trivial
  | tmr_callback id r hr => exact iff_of_true (held_tmr_callback h hh hr) trivial

end Timers

/-! ## operations -/

namespace I2c
variable {s s' : I2c} {st st' : List Nat}

/-- What owns itself is in progress. -/
def Busy (s : I2c) (st : List Nat) : Prop := ∀ t, s.Holds t → (∃ x ∈ s.pending, x.op = t) ∨ t ∈ st

theorem busy_start (hl : Life s st) (h : Busy s st) (dir : Dir) (address flags : Nat)
    (payload : Option Buf) (length : Nat) (accepted : Bool) :
    Busy (s.start dir address flags payload length accepted) st ↔ accepted = true := by
  cases accepted with
  | true =>
    refine iff_of_true (fun t ht => ?_) rfl
    obtain ht | ⟨rfl, -⟩ := member_push.mp ht
    · obtain ⟨x, hx, he⟩ | ht := h t ht
      · exact Or.inl ⟨x, List.mem_append_left _ hx, he⟩
      · exact Or.inr ht
    · exact Or.inl ⟨_, List.mem_append_right _ (List.mem_singleton_self _), rfl⟩
  | false =>
    refine iff_of_false (fun hb => ?_) Bool.false_ne_true
    have hnew : (s.start dir address flags payload length false).Holds s.ops.length :=
      member_push.mpr (Or.inr ⟨rfl, rfl⟩)
    -- nothing in progress has the number of the new operation
    obtain ⟨x, hx, he⟩ | hst := hb _ hnew
    · have hlt := (hl.pending x hx).2.lt
      omega
    · have hlt := (hl.running _ hst).lt
      omega

/-- **One call**: every operation that owns itself is in progress afterwards iff no transaction is
refused. -/
theorem busy_step (hl : Life s st) (h : Busy s st) {o : I2cOp} (hs : s.step o = some s')
    (hc : o.Calls st st') : Busy s' st' ↔ o.Granted := by
  cases step_cases hs with
  | mkbuf =>
    cases hc
    exact iff_of_true h trivial
  | freebuf b hb =>
    cases hc
    exact iff_of_true h trivial
  | write address flags payload length accepted hp =>
    cases hc
    exact busy_start hl h ..
  | read address flags target length accepted hp =>
    cases hc
    exact busy_start hl h ..
  | copy t ht =>
    cases hc
    exact iff_of_true h trivial
  | drop t ht =>
    cases hc
    exact iff_of_true h trivial
  | invoke t status ht =>
    cases hc
    refine iff_of_true (fun u hu => ?_) trivial
    rw [holds_invoke] at hu
    by_cases hut : u = t
    · exact Or.inr (hut ▸ List.mem_cons_self ..)
    · obtain ⟨x, hx, rfl⟩ | hst := h u hu
      · refine Or.inl ⟨x, ?_, rfl⟩
        rw [pending_invoke]
        exact List.mem_filter.mpr ⟨hx, decide_eq_true hut⟩
      · exact Or.inr (List.mem_cons_of_mem _ hst)
  | finish t =>
    change st = t :: st' at hc
    subst hc
    refine iff_of_true (fun u hu => ?_) trivial
    have hut : u ≠ t := by
      intro he
      subst he
      obtain ⟨P, hP, hself⟩ := Option.map_eq_some_iff.mp hu
      change (s.ops.modify u _)[u]? = some P at hP
      rw [List.getElem?_modify_eq] at hP
      obtain ⟨Q, -, rfl⟩ := Option.map_eq_some_iff.mp hP
      cases hself
    obtain hx | hst := h u ((holds_finish hut).mp hu)
    · exact Or.inl hx
    · obtain hst | hst := List.mem_cons.mp hst
      · exact absurd hst hut
      · exact Or.inr hst

end I2c

/-! ## every run -/

/-- what holds in every run -/
structure Registries (w : World) : Prop where
  timers : w.timers.Sound
  sockets : w.udp.Registered
  ops : w.i2c.Life w.completing

section
variable {w w' : World}

theorem Registries.init : Registries {} := ⟨Timers.Sound.init, Udp.Registered.init, I2c.Life.init⟩

theorem Registries.step (h : Registries w) {a : Act} (hs : w.step a = some w') : Registries w' :=
  ⟨sound_step h.timers hs, registered_step h.sockets hs, life_step h.ops hs⟩

/-- sockets are registered while they own themselves, whatever the kernel answers -/
theorem Registries.open_ (h : Registries w) (t : Nat) (ht : w.udp.IsOpen t) : w.udp.InKernel t := by
  obtain ⟨S, hS, hself⟩ := Option.map_eq_some_iff.mp ht
  exact ⟨S.id, h.sockets.held t S.id (Udp.claim_eq.mpr ⟨S, hS, hself, rfl⟩)⟩

theorem pinsRegistered_iff (h : Registries w) :
    PinsRegistered w ↔ Held w.timers.table w.timers.claim ∧ w.i2c.Busy w.completing := by
  rw [Timers.held_iff h.timers]
  constructor
  · exact fun hp => ⟨hp.timers.owns, hp.ops.owns⟩
  · exact fun hb => ⟨pinning_iff.mpr hb.1, pinning_iff.mpr h.open_, pinning_iff.mpr hb.2⟩

/-- **One step** leaves only registered objects with a circular reference iff nothing is refused. -/
theorem pins_step (h : Registries w) (hp : PinsRegistered w) {a : Act} (hs : w.step a = some w') :
    PinsRegistered w' ↔ a.Accepted := by
  rw [pinsRegistered_iff (h.step hs)]
  obtain ⟨ht, hb⟩ := (pinsRegistered_iff h).mp hp
  have hframes := step_frames hs
  cases a with
  | timer o =>
    have hops : w'.i2c.Busy w'.completing := by
      rw [hframes.i2c rfl, completing_other hs rfl]
      exact hb
    rw [and_iff_left hops]
    exact Timers.held_step h.timers ht (step_timer hs)
  | i2c o =>
    have htimers : Held w'.timers.table w'.timers.claim := by
      rw [hframes.timers rfl]
      exact ht
    rw [and_iff_right htimers]
    exact I2c.busy_step h.ops hb (step_i2c hs) (completing_i2c hs)
  | _ =>
    rw [hframes.timers rfl, hframes.i2c rfl, completing_other hs rfl]
    exact iff_of_true ⟨ht, hb⟩ trivial

end

theorem PinsRegistered.init : PinsRegistered {} :=
  (pinsRegistered_iff Registries.init).mpr
    ⟨fun _ _ h => (by cases h), fun t ht => by cases ht⟩

/-- **Refusals**: in every state of a run only registered objects own themselves, so that the others are
released with their last handle, if and only if the kernel refuses no timer and no transaction; a
socket may be refused at any of its syscalls. -/
theorem pins_registered_iff (as : List Act) (w : World) (hr : World.runs as = some w) :
    Throughout World.step PinsRegistered {} as ↔ ∀ a ∈ as, a.Accepted := by
  rw [← along_iff_mem hr]
  exact throughout_iff_along (I := Registries) (fun _ _ _ h hs => h.step hs)
    (fun _ _ _ h hq hs => pins_step h hq hs) Registries.init PinsRegistered.init hr

/-- sockets that are refused, and a timer and an operation that are not -/
def refusedSocketRun : List Act :=
  [.mkFn, .udp (.open_ 1234 0 ⟨-1, 0, 0⟩), .udp (.open_ 1234 0 ⟨5, -1, 0⟩), .udp (.open_ 1235 0 ⟨6, 0, -1⟩),
   .timer (.once 375 0 (some 3)), .i2c .mkbuf, .i2c (.write 0x280 1 (some 0) 2 true), .k_wait_callback,
   .i2c (.invoke 0 0), .i2c (.finish 0), .timer (.tmr_callback 3), .ret]

theorem pins_registered_refused : ∃ w, World.runs refusedSocketRun = some w ∧
    Throughout World.step PinsRegistered {} refusedSocketRun :=
  ⟨_, rfl, (pins_registered_iff refusedSocketRun _ rfl).mpr (by decide)⟩

/-- A timer that is refused keeps itself for good, when its handle has been dropped. -/
theorem refused_timer_stays : ¬ ∀ (as : List Act) (w : World), World.runs as = some w →
    Throughout World.step PinsRegistered {} as := by
  intro h
  have hlast := h [.mkFn, .timer (.once 375 0 none), .timer (.drop 0)] _ rfl _ _ (List.prefix_refl _) rfl
  obtain ⟨id, hid⟩ := hlast.timers.owns 0 rfl
  cases hid

end Storm
end Pharoah
