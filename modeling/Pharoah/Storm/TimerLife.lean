import Pharoah.Lib.Leases
import Pharoah.Lib.SelfRef
import Pharoah.Storm.Parts

/-!
# Timers: the life of a timer

The kernel leases ids to timers; a timer believes to hold its id while its `self` is set.

* `Timers.Sound`    a registration belongs to a timer with `self` set: in every run;
* `Timers.Leased`   and the other way round: in every run in which no registration is refused;
* `self_stays`      a `self` that has been reset stays reset.

`timer_lifecycle`: **`self` is set exactly while the kernel holds a registration for the timer under
its id**, with what follows for pointers, cancels and memory.
-/

namespace Pharoah
namespace Storm

namespace Timers

/-- the timer that an id is registered for -/
def table (s : Timers) : Nat → Option Nat := Option.map Registration.ptr ∘ s.reg

/-- the id of a timer whose `self` is set -/
def claim (s : Timers) : Nat → Option Nat := claims Timer.id Timer.self s.objs

theorem table_eq {s : Timers} {id t : Nat} :
    s.table id = some t ↔ ∃ r, s.reg id = some r ∧ r.ptr = t := Option.map_eq_some_iff

theorem claim_eq {s : Timers} {t id : Nat} :
    s.claim t = some id ↔ ∃ T, s.objs[t]? = some T ∧ T.self = true ∧ T.id = id := claims_eq

/-- A registration belongs to a timer of its kind that has `self` set. -/
structure Sound (s : Timers) : Prop where
  backed : Backed s.table s.claim
  kind : ∀ id r T, s.reg id = some r → s.objs[r.ptr]? = some T → T.is_periodic = r.periodic
  handles : ∀ t ∈ s.handles, t < s.objs.length

/-- and a timer that has `self` set is registered under its id -/
structure Leased (s : Timers) : Prop extends Sound s where
  held : Held s.table s.claim
  cancels : ∀ c ∈ s.cancels, c.holder = some c.issuer

/-! ## what the operations do to the leases -/

section
variable (s : Timers)

theorem claim_create (periodic : Bool) (ticks : Nat) (callback : Fn) (reply : Option Nat) :
    (s.create periodic ticks callback reply).claim =
      Function.update s.claim s.objs.length (some ((reply.getD (2 ^ 32 - 1)) % 2 ^ 16)) :=
  claims_push rfl

theorem table_create (periodic : Bool) (ticks : Nat) (callback : Fn) (i : Nat) :
    (s.create periodic ticks callback (some i)).table =
      Function.update s.table i (some s.objs.length) := Function.comp_update ..

theorem table_refused (periodic : Bool) (ticks : Nat) (callback : Fn) :
    (s.create periodic ticks callback none).table = s.table := rfl

theorem claim_resetSelf (t : Nat) : (s.resetSelf t).claim = Function.update s.claim t none :=
  claims_reset (fun _ => rfl) t

theorem table_cancel (t id : Nat) : (s.syscall_cancel t id).table = Function.update s.table id none :=
  Function.comp_update ..

end

section
variable {s s' : Timers}

/-- `self.reset()` changes `self` only -/
theorem get_resetSelf {t u : Nat} {U : Timer} (hu : (s.resetSelf t).objs[u]? = some U) :
    ∃ T, s.objs[u]? = some T ∧ U.id = T.id ∧ U.is_periodic = T.is_periodic ∧
      U.callback = T.callback ∧ (U.self = T.self ∨ U.self = false) := by
  change (s.objs.modify t _)[u]? = some U at hu
  rw [List.getElem?_modify, Option.map_eq_map, Option.map_eq_some_iff] at hu
  obtain ⟨T, hT, rfl⟩ := hu
  refine ⟨T, hT, ?_⟩
  split
  · exact ⟨rfl, rfl, rfl, Or.inr rfl⟩
  · exact ⟨rfl, rfl, rfl, Or.inl rfl⟩

/-- `fire` of a timer with `self` set -/
theorem fire_eq {t : Nat} {T : Timer} (hT : s.objs[t]? = some T) :
    s.fire t = if T.is_periodic then s else s.resetSelf t := by
  unfold fire
  rw [hT]

theorem cancel_eq {t : Nat} {T : Timer} (hT : s.objs[t]? = some T) :
    s.cancel t = if T.self then (s.syscall_cancel t T.id).resetSelf t else s := by
  unfold cancel
  rw [hT]

theorem cancel_none {t : Nat} (hT : s.objs[t]? = none) : s.cancel t = s := by
  unfold cancel
  rw [hT]

/-- what a delivery does: nothing for a periodic timer, and the end of the lease for a one-shot -/
theorem Sound.expire (h : Sound s) {id : Nat} {r : Registration} (hr : s.reg id = some r) :
    ∃ T, s.objs[r.ptr]? = some T ∧ T.self = true ∧ T.id = id ∧ T.is_periodic = r.periodic ∧
      (s.expire id r).fire r.ptr = if T.is_periodic then s else
        { s.resetSelf r.ptr with reg := Function.update s.reg id none } := by
  obtain ⟨T, hT, hself, hid⟩ := claim_eq.mp (h.backed r.ptr id (table_eq.mpr ⟨r, hr, rfl⟩))
  have hk := h.kind id r T hr hT
  refine ⟨T, hT, hself, hid, hk, ?_⟩
  unfold Timers.expire
  rw [← hk]
  cases hp : T.is_periodic with
  | true =>
    rw [if_pos rfl, fire_eq hT, hp]
    rfl
  | false =>
    rw [if_neg Bool.false_ne_true, if_neg Bool.false_ne_true,
      fire_eq (s := { s with reg := Function.update s.reg id none }) hT, hp]
    rfl

/-! ## every operation keeps the leases -/

theorem Sound.create (h : Sound s) {reply : Option Nat} (hg : s.Grants reply) (periodic : Bool)
    (ticks : Nat) (callback : Fn) : Sound (s.create periodic ticks callback reply) := by
  have hnew : s.claim s.objs.length = none := claims_new
  refine ⟨?_, fun id r T hr hT => ?_, fun t ht => ?_⟩
  · rw [claim_create]
    cases reply with
    | none => exact h.backed.pretend hnew
    | some i =>
      have hi : i % 2 ^ 16 = i := Nat.mod_eq_of_lt (hg i rfl).1
      rw [table_create]
      show Backed _ (Function.update s.claim s.objs.length (some (i % 2 ^ 16)))
      rw [hi]
      exact h.backed.grant hnew
  · have old : ∀ id r, s.reg id = some r → s.objs[r.ptr]? = some T → T.is_periodic = r.periodic :=
      fun id r => h.kind id r T
    have lt : ∀ id r, s.reg id = some r → r.ptr ≠ s.objs.length := fun id r hr he => by
      have hb := h.backed r.ptr id (table_eq.mpr ⟨r, hr, rfl⟩)
      rw [he, hnew] at hb
      cases hb
    -- the registration is an old one, or the one just made
    have hcase : s.reg id = some r ∨ r = ⟨s.objs.length, ticks, periodic⟩ := by
      cases reply with
      | none => exact Or.inl hr
      | some i =>
        change Function.update s.reg i _ id = some r at hr
        by_cases hid : id = i
        · subst hid
          rw [Function.update_self] at hr
          exact Or.inr (Option.some.inj hr).symm
        · rw [Function.update_of_ne hid] at hr
          exact Or.inl hr
    obtain hT' | ⟨hp, rfl⟩ := getElem?_push.mp hT
    · obtain hr' | rfl := hcase
      · exact old id r hr' hT'
      · have hlt := (List.getElem?_eq_some_iff.mp hT').1
        exact absurd hlt (Nat.lt_irrefl _)
    · obtain hr' | rfl := hcase
      · exact absurd hp (lt id r hr')
      · rfl
  · show t < (s.objs ++ [_]).length
    rw [List.length_append, List.length_singleton]
    obtain rfl | ht := List.mem_cons.mp ht
    · omega
    · have hlt := h.handles t ht
      omega

/-- fewer registrations, and objects that differ in `self` -/
theorem kind_mono (h : Sound s) (hr : ∀ id r, s'.reg id = some r → s.reg id = some r)
    (ho : ∀ (u : Nat) (U : Timer), s'.objs[u]? = some U → ∃ T, s.objs[u]? = some T ∧ U.is_periodic = T.is_periodic) :
    ∀ id r T, s'.reg id = some r → s'.objs[r.ptr]? = some T → T.is_periodic = r.periodic := by
  intro id r U hreg hU
  obtain ⟨T, hT, he⟩ := ho _ _ hU
  exact he.trans (h.kind id r T (hr id r hreg) hT)

theorem update_none {reg : Nat → Option Registration} {i id : Nat} {r : Registration}
    (hr : Function.update reg i none id = some r) : reg id = some r := by
  by_cases hid : id = i
  · subst hid
    rw [Function.update_self] at hr
    cases hr
  · rwa [Function.update_of_ne hid] at hr

theorem Sound.cancel (h : Sound s) (t : Nat) : Sound (s.cancel t) := by
  cases hT : s.objs[t]? with
  | none => rwa [cancel_none hT]
  | some T =>
    rw [cancel_eq hT]
    split
    · next hself =>
      refine ⟨?_, kind_mono h (fun id r hr => update_none hr) fun u U hU => ?_, fun u hu => ?_⟩
      · rw [claim_resetSelf]
        show Backed (s.syscall_cancel t T.id).table (Function.update s.claim t none)
        rw [table_cancel]
        exact h.backed.revoke (claim_eq.mpr ⟨T, hT, hself, rfl⟩)
      · obtain ⟨V, hV, -, hk, -⟩ := get_resetSelf hU
        exact ⟨V, hV, hk⟩
      · show u < (s.objs.modify t _).length
        rw [List.length_modify]
        exact h.handles u hu
    · exact h

theorem Sound.tmr_callback (h : Sound s) {id : Nat} {r : Registration} (hr : s.reg id = some r) :
    Sound ((s.expire id r).fire r.ptr) := by
  obtain ⟨T, hT, hself, hid, -, he⟩ := h.expire hr
  rw [he]
  split
  · exact h
  · refine ⟨?_, kind_mono h (fun id r hr => update_none hr) fun u U hU => ?_, fun u hu => ?_⟩
    · show Backed (Option.map Registration.ptr ∘ Function.update s.reg id none) (s.resetSelf r.ptr).claim
      rw [claim_resetSelf, Function.comp_update]
      exact h.backed.revoke (claim_eq.mpr ⟨T, hT, hself, hid⟩)
    · obtain ⟨V, hV, -, hk, -⟩ := get_resetSelf hU
      exact ⟨V, hV, hk⟩
    · show u < (s.objs.modify r.ptr _).length
      rw [List.length_modify]
      exact h.handles u hu

/-- **Every operation keeps the registrations sound.** -/
theorem Sound.step (h : Sound s) {o : TimerOp} (hs : s.step o = some s') : Sound s' := by
  cases step_cases hs with
  | once ticks callback reply hg => exact h.create hg false ticks callback
  | periodic ticks callback reply hg => exact h.create hg true ticks callback
  | cancel t ht => exact h.cancel t
  | copy t ht =>
    refine ⟨h.backed, h.kind, fun u hu => ?_⟩
    obtain rfl | hu := List.mem_cons.mp hu
    · exact h.handles _ ht
    · exact h.handles u hu
  | drop t ht => exact ⟨h.backed, h.kind, fun u hu => h.handles u (List.mem_of_mem_erase hu)⟩
  | tmr_callback id r hr => exact h.tmr_callback hr

theorem Sound.init : Sound {} :=
  ⟨fun _ _ h => (by cases h), fun _ _ _ h => (by cases h), fun _ h => (by cases h)⟩

/-! ## without refusals -/

theorem Leased.init : Leased {} :=
  { Sound.init with held := fun _ _ h => (by cases h), cancels := fun _ h => (by cases h) }

theorem held_create (h : Held s.table s.claim) {i : Nat} (hg : s.Grants (some i)) (periodic : Bool)
    (ticks : Nat) (callback : Fn) :
    Held (s.create periodic ticks callback (some i)).table (s.create periodic ticks callback (some i)).claim := by
  have hi : i % 2 ^ 16 = i := Nat.mod_eq_of_lt (hg i rfl).1
  have hfree : s.table i = none := by
    show (s.reg i).map Registration.ptr = none
    rw [(hg i rfl).2]
    rfl
  rw [claim_create, table_create]
  show Held _ (Function.update s.claim s.objs.length (some (i % 2 ^ 16)))
  rw [hi]
  exact h.grant hfree

theorem held_cancel (h : Held s.table s.claim) (t : Nat) : Held (s.cancel t).table (s.cancel t).claim := by
  cases hT : s.objs[t]? with
  | none =>
    rw [cancel_none hT]
    exact h
  | some T =>
    rw [cancel_eq hT]
    split
    · next hself =>
      have hclaim : s.claim t = some T.id := claim_eq.mpr ⟨T, hT, hself, rfl⟩
      rw [claim_resetSelf]
      show Held (s.syscall_cancel t T.id).table (Function.update s.claim t none)
      rw [table_cancel]
      exact h.revoke hclaim
    · exact h

theorem held_tmr_callback (hs : Sound s) (h : Held s.table s.claim) {id : Nat} {r : Registration}
    (hr : s.reg id = some r) :
    Held ((s.expire id r).fire r.ptr).table ((s.expire id r).fire r.ptr).claim := by
  obtain ⟨T, hT, hself, hid, -, he⟩ := hs.expire hr
  rw [he]
  split
  · exact h
  · show Held (Option.map Registration.ptr ∘ Function.update s.reg id none) (s.resetSelf r.ptr).claim
    rw [claim_resetSelf, Function.comp_update]
    exact h.revoke (claim_eq.mpr ⟨T, hT, hself, hid⟩)

theorem Leased.create (h : Leased s) {i : Nat} (hg : s.Grants (some i)) (periodic : Bool)
    (ticks : Nat) (callback : Fn) : Leased (s.create periodic ticks callback (some i)) :=
  { h.toSound.create hg periodic ticks callback with
    held := held_create h.held hg periodic ticks callback
    cancels := h.cancels }

theorem Leased.cancel (h : Leased s) (t : Nat) : Leased (s.cancel t) := by
  refine { h.toSound.cancel t with held := held_cancel h.held t, cancels := ?_ }
  cases hT : s.objs[t]? with
  | none =>
    rw [cancel_none hT]
    exact h.cancels
  | some T =>
    rw [cancel_eq hT]
    split
    · next hself =>
      intro c hc
      obtain hc | hc := List.mem_append.mp hc
      · exact h.cancels c hc
      · rw [List.mem_singleton.mp hc]
        exact h.held t T.id (claim_eq.mpr ⟨T, hT, hself, rfl⟩)
    · exact h.cancels

theorem Leased.tmr_callback (h : Leased s) {id : Nat} {r : Registration} (hr : s.reg id = some r) :
    Leased ((s.expire id r).fire r.ptr) := by
  refine { h.toSound.tmr_callback hr with held := held_tmr_callback h.toSound h.held hr, cancels := ?_ }
  obtain ⟨T, -, -, -, -, he⟩ := h.toSound.expire hr
  rw [he]
  split
  · exact h.cancels
  · exact h.cancels

end

end Timers

/-- The kernel does not refuse a registration. -/
def TimerOp.Granted : TimerOp → Prop
  | .once _ _ reply => reply ≠ none
  | .periodic _ _ reply => reply ≠ none
  | _ => True

instance (o : TimerOp) : Decidable o.Granted := by
  cases o <;> unfold TimerOp.Granted <;> infer_instance

namespace Timers

section
variable {s s' : Timers}

/-- **Every operation keeps the leases**, if the kernel does not refuse. -/
theorem Leased.step (h : Leased s) {o : TimerOp} (ho : o.Granted) (hs : s.step o = some s') :
    Leased s' := by
  cases step_cases hs with
  | once ticks callback reply hg =>
    cases reply with
    | none => exact absurd rfl ho
    | some i => exact h.create hg false ticks callback
  | periodic ticks callback reply hg =>
    cases reply with
    | none => exact absurd rfl ho
    | some i => exact h.create hg true ticks callback
  | cancel t ht => exact h.cancel t
  | copy t ht =>
    have hsound := h.toSound.step hs
    exact { hsound with held := h.held, cancels := h.cancels }
  | drop t ht =>
    have hsound := h.toSound.step hs
    exact { hsound with held := h.held, cancels := h.cancels }
  | tmr_callback id r hr => exact h.tmr_callback hr

/-! ## the end of a timer -/

/-- It has been cancelled, or was a one-shot and has fired. -/
def Ended (s : Timers) (t : Nat) : Prop := ∃ T, s.objs[t]? = some T ∧ T.self = false

theorem Ended.resetSelf {t : Nat} (h : Ended s t) (u : Nat) : Ended (s.resetSelf u) t := by
  obtain ⟨T, hT, hself⟩ := h
  refine ⟨if u = t then { T with self := false } else T, ?_, ?_⟩
  · show (s.objs.modify u _)[t]? = _
    rw [List.getElem?_modify, hT]
    rfl
  · split
    · rfl
    · exact hself

theorem ended_resetSelf {t : Nat} {T : Timer} (hT : s.objs[t]? = some T) : Ended (s.resetSelf t) t := by
  refine ⟨{ T with self := false }, ?_, rfl⟩
  show (s.objs.modify t _)[t]? = _
  rw [List.getElem?_modify_eq, hT]
  rfl

theorem Ended.create {t : Nat} (h : Ended s t) (periodic : Bool) (ticks : Nat) (callback : Fn)
    (reply : Option Nat) : Ended (s.create periodic ticks callback reply) t := by
  obtain ⟨T, hT, hself⟩ := h
  exact ⟨T, getElem?_push.mpr (Or.inl hT), hself⟩

theorem ended_cancel {t : Nat} (ht : t < s.objs.length) : Ended (s.cancel t) t := by
  have hT : s.objs[t]? = some s.objs[t] := List.getElem?_eq_getElem ht
  rw [cancel_eq hT]
  split
  · exact ended_resetSelf (s := s.syscall_cancel t _) hT
  · next hself => exact ⟨_, hT, Bool.eq_false_iff.mpr hself⟩

theorem Ended.cancel {t : Nat} (h : Ended s t) (u : Nat) : Ended (s.cancel u) t := by
  cases hT : s.objs[u]? with
  | none => rwa [cancel_none hT]
  | some T =>
    rw [cancel_eq hT]
    split
    · exact Ended.resetSelf (s := s.syscall_cancel u T.id) h u
    · exact h

/-- a second cancel does nothing -/
theorem Ended.cancel_self {t : Nat} (h : Ended s t) : s.cancel t = s := by
  obtain ⟨T, hT, hself⟩ := h
  rw [cancel_eq hT, if_neg (by rw [hself]; exact Bool.false_ne_true)]

theorem Ended.fire {t : Nat} (h : Ended s t) (id : Nat) (r : Registration) :
    Ended ((s.expire id r).fire r.ptr) t := by
  have he : Ended (s.expire id r) t := by
    unfold Timers.expire
    split
    · exact h
    · exact h
  unfold Timers.fire
  split
  · split
    · exact he
    · exact he.resetSelf _
  · exact he

/-- **What has ended stays so.** -/
theorem Ended.step {t : Nat} (h : Ended s t) {o : TimerOp} (hs : s.step o = some s') : Ended s' t := by
  cases step_cases hs with
  | once ticks callback reply hg => exact h.create false ticks callback reply
  | periodic ticks callback reply hg => exact h.create true ticks callback reply
  | cancel u ht => exact h.cancel u
  | copy u ht => exact h
  | drop u ht => exact h
  | tmr_callback id r hr => exact h.fire id r

/-- only handles keep it -/
theorem Ended.live {t : Nat} (h : Ended s t) : s.Live t ↔ t ∈ s.handles := by
  obtain ⟨T, hT, hself⟩ := h
  refine ⟨fun hl => ?_, Or.inl⟩
  obtain hl | ⟨U, hU, hUs⟩ := hl
  · exact hl
  · rw [hT] at hU
    cases hU
    rw [hself] at hUs
    cases hUs

end
end Timers

/-! ## the timers in a program -/

/-- The kernel does not refuse the registration of a timer. -/
def Act.Granted (a : Act) : Prop := ∀ o ∈ a.timerOp, o.Granted

/-- the step that ends a timer: its cancel, or the delivery of its expiry if it is a one-shot -/
def Ends (w : World) (t : Nat) (a : Act) : Prop :=
  a = .timer (.cancel t) ∨ ∃ id r T, a = .timer (.tmr_callback id) ∧ w.timers.reg id = some r ∧
    r.ptr = t ∧ w.timers.objs[t]? = some T ∧ T.is_periodic = false

section
variable {w w' : World}

theorem sound_run {as : List Act} (h : w.timers.Sound) (hr : Lts.exec World.step w as = some w') :
    w'.timers.Sound :=
  Lts.invariant (fun _ _ _ h hs => h.step hs) h (timers_run hr)

theorem sound_step {a : Act} (h : w.timers.Sound) (hs : w.step a = some w') : w'.timers.Sound :=
  sound_run h (Lts.exec_single hs)

theorem timers_sound {as : List Act} (hr : World.runs as = some w) : w.timers.Sound :=
  sound_run Timers.Sound.init hr

theorem timers_leased {as : List Act} (hg : ∀ a ∈ as, a.Granted) (hr : World.runs as = some w) :
    w.timers.Leased := by
  refine Lts.invariant_of_mem (G := TimerOp.Granted) (fun _ _ _ h ho hs => h.step ho hs) ?_
    Timers.Leased.init (timers_run hr)
  intro o ho
  obtain ⟨a, ha, hao⟩ := List.mem_filterMap.mp ho
  exact hg a ha o hao

theorem ended_run {t : Nat} {as : List Act} (he : w.timers.Ended t)
    (hr : Lts.exec World.step w as = some w') : w'.timers.Ended t :=
  Lts.invariant (I := fun s => Timers.Ended s t) (fun _ _ _ h hs => h.step hs) he (timers_run hr)

theorem ends_ended {t : Nat} {a : Act} (h : w.timers.Sound) (he : Ends w t a)
    (hs : w.step a = some w') : w'.timers.Ended t := by
  obtain rfl | ⟨id, r, T, rfl, hreg, rfl, hT, hp⟩ := he
  · obtain ⟨ht, he⟩ := Option.ite_none_right_eq_some.mp (step_timer hs)
    rw [← Option.some.inj he]
    exact Timers.ended_cancel (h.handles t ht)
  · have ht := step_timer hs
    change Option.map _ (w.timers.reg id) = _ at ht
    rw [hreg] at ht
    obtain ⟨U, hU, -, -, -, hfire⟩ := h.expire hreg
    rw [hT] at hU
    cases hU
    rw [hp, if_neg Bool.false_ne_true] at hfire
    have hw' : (w.timers.expire id r).fire r.ptr = w'.timers := Option.some.inj ht
    rw [← hw', hfire]
    exact Timers.ended_resetSelf hT

end

/-- `self` of a timer is set exactly while the kernel holds a registration with its pointer under its
id, every pointer that the kernel can deliver to is live, every syscall 0x205 has named a
registration of the timer that was cancelled, and after its end only handles keep a timer and a
cancel of it does nothing. -/
structure Lifecycle (w : World) : Prop where
  registered : ∀ t T, w.timers.objs[t]? = some T →
    (T.self = true ↔ ∃ r, w.timers.reg T.id = some r ∧ r.ptr = t)
  pointers : ∀ id r, w.timers.reg id = some r → w.timers.Live r.ptr
  cancels : ∀ c ∈ w.timers.cancels, c.holder = some c.issuer
  ended : ∀ t a w1 bs w2, Ends w t a → w.step a = some w1 → Lts.exec World.step w1 bs = some w2 →
    (w2.timers.Live t → t ∈ w2.timers.handles) ∧
    ∀ w3, w2.step (.timer (.cancel t)) = some w3 → w3.timers = w2.timers

/-- **The life of a timer**, in every run in which the kernel refuses no timer. -/
theorem timer_lifecycle (as : List Act) (hg : ∀ a ∈ as, a.Granted) (w : World)
    (hr : World.runs as = some w) : Lifecycle w := by
  have hl := timers_leased hg hr
  refine ⟨fun t T hT => ⟨fun hself => ?_, fun ⟨r, hreg, hp⟩ => ?_⟩, fun id r hreg => ?_, hl.cancels,
    fun t a w1 bs w2 he hs hr2 => ?_⟩
  · exact Timers.table_eq.mp (hl.held t T.id (Timers.claim_eq.mpr ⟨T, hT, hself, rfl⟩))
  · obtain ⟨U, hU, hself, -⟩ :=
      Timers.claim_eq.mp (hl.backed t T.id (Timers.table_eq.mpr ⟨r, hreg, hp⟩))
    rw [hT] at hU
    cases hU
    exact hself
  · obtain ⟨T, hT, hself, -⟩ :=
      Timers.claim_eq.mp (hl.backed r.ptr id (Timers.table_eq.mpr ⟨r, hreg, rfl⟩))
    exact Or.inr ⟨T, hT, hself⟩
  · have hend := ended_run (ends_ended hl.toSound he hs) hr2
    refine ⟨hend.live.mp, fun w3 h3 => ?_⟩
    obtain ⟨-, h3⟩ := Option.ite_none_right_eq_some.mp (step_timer h3)
    rw [← Option.some.inj h3, hend.cancel_self]

instance (a : Act) : Decidable a.Granted := inferInstanceAs (Decidable (∀ o ∈ a.timerOp, o.Granted))

/-- a periodic timer that is cancelled twice, and a one-shot with its recycled id that fires -/
def recycledRun : List Act :=
  [.mkFn, .timer (.periodic 375 0 (some 7)), .k_wait_callback, .timer (.tmr_callback 7), .ret,
   .timer (.cancel 0), .timer (.once 375 0 (some 7)), .timer (.cancel 0), .k_wait_callback,
   .timer (.tmr_callback 7), .ret, .timer (.drop 1)]

theorem timer_lifecycle_recycled : ∃ w, World.runs recycledRun = some w ∧ Lifecycle w :=
  ⟨_, rfl, timer_lifecycle recycledRun (by decide) _ rfl⟩

end Storm
end Pharoah
