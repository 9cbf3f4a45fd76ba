import Pharoah.Storm.SocketLife
import Pharoah.Storm.TimerLife

/-!
# Function objects: who owns them

A shared `std::function` is owned by the `shared_ptr`s to it: copies of user code, the tasks in the
queue, the entries of `irq_ptrs`, and the `callback` members of timers and sockets that have not been
released.

* `World.Owns`      an owner holds a function object;
* `World.Releases`  a step takes the `shared_ptr` of an owner away;
* `owned_step`      **a function object has an owner after a step iff it had one before that the step
                    does not release**, or the step has made it.
-/

namespace Pharoah
namespace Storm

/-- a place that a `shared_ptr` to a function object is kept in; a task by its place in the queue -/
inductive Owner where
  | user (f : Fn)
  | task (i : Nat)
  | irq (idx : Nat)
  | timer (t : Nat)
  | socket (t : Nat)

/-! ## timers -/

namespace Timers

/-- `t` has not been released, and its `callback` is `f`. -/
def Holds (s : Timers) (t : Nat) (f : Fn) : Prop :=
  s.Live t ∧ (s.objs[t]?).map Timer.callback = some f

/-- The last handle of `t`, which does not own itself, is dropped. -/
def Frees (s : Timers) (o : TimerOp) (t : Nat) : Prop :=
  o = .drop t ∧ ¬ Live { s with handles := s.handles.erase t } t

end Timers

/-- the callback that a new timer is given -/
def TimerOp.given : TimerOp → Option Fn
  | .once _ callback _ => some callback
  | .periodic _ callback _ => some callback
  | _ => none

namespace Timers
variable {s s' : Timers} {t : Nat} {f : Fn}

theorem holds_create (periodic : Bool) (ticks : Nat) (callback : Fn) (reply : Option Nat) :
    (s.create periodic ticks callback reply).Holds t f ↔
      s.Holds t f ∨ t = s.objs.length ∧ callback = f := by
  have hkept : (s.create periodic ticks callback reply).Live t ↔ s.Live t ∨ t = s.objs.length :=
    kept_push_handle
  unfold Holds
  show _ ∧ ((s.objs ++ [_])[t]?).map Timer.callback = some f ↔ _
  rw [hkept, member_push]
  constructor
  · intro h
    obtain ⟨hl, hf | hf⟩ := h
    · obtain hl | ht := hl
      · exact Or.inl ⟨hl, hf⟩
      · subst ht
        rw [List.getElem?_eq_none (Nat.le_refl _)] at hf
        cases hf
    · exact Or.inr hf
  · intro h
    obtain ⟨hl, hf⟩ | ⟨ht, hf⟩ := h
    · exact ⟨Or.inl hl, Or.inl hf⟩
    · exact ⟨Or.inr ht, Or.inr ⟨ht, hf⟩⟩

theorem callback_resetSelf (u : Nat) :
    ((s.resetSelf u).objs[t]?).map Timer.callback = (s.objs[t]?).map Timer.callback := by
  show ((s.objs.modify u fun T => { T with self := false })[t]?).map Timer.callback = _
  apply member_modify
  exact fun _ => rfl

theorem holds_of_resetSelf {u : Nat} (h : (s.resetSelf u).Holds t f) : s.Holds t f :=
  ⟨kept_of_reset (fun _ => rfl) h.1, callback_resetSelf u ▸ h.2⟩

theorem holds_resetSelf {u : Nat} (hu : u ≠ t) (h : s.Holds t f) : (s.resetSelf u).Holds t f :=
  ⟨(kept_reset_ne hu _).mpr h.1, (callback_resetSelf u).trans h.2⟩

/-- what is called on a timer through a handle does not release it -/
theorem holds_cancel {u : Nat} (hu : u ∈ s.handles) : (s.cancel u).Holds t f ↔ s.Holds t f := by
  cases hU : s.objs[u]? with
  | none => rw [cancel_none hU]
  | some U =>
    rw [cancel_eq hU]
    split
    · have hkept : ((s.syscall_cancel u U.id).resetSelf u).Live t ↔ s.Live t := kept_reset hu _
      exact and_congr hkept (by rw [callback_resetSelf]; rfl)
    · exact Iff.rfl

/-- a timer that still holds its callback has held it, and has not been released -/
theorem holds_back (h : Sound s) {o : TimerOp} (hs : s.step o = some s') (hf : s'.Holds t f) :
    s.Holds t f ∧ ¬ s.Frees o t ∨ o.given = some f := by
  cases step_cases hs with
  | once ticks callback reply hg =>
    obtain hf | ⟨-, rfl⟩ := (holds_create false ticks callback reply).mp hf
    · exact Or.inl ⟨hf, fun hd => by cases hd.1⟩
    · exact Or.inr rfl
  | periodic ticks callback reply hg =>
    obtain hf | ⟨-, rfl⟩ := (holds_create true ticks callback reply).mp hf
    · exact Or.inl ⟨hf, fun hd => by cases hd.1⟩
    · exact Or.inr rfl
  | cancel u hu => exact Or.inl ⟨(holds_cancel hu).mp hf, fun hd => by cases hd.1⟩
  | copy u hu => exact Or.inl ⟨⟨(kept_copy hu).mp hf.1, hf.2⟩, fun hd => by cases hd.1⟩
  | drop u ht =>
    obtain ⟨hl, hno⟩ := kept_drop.mp hf.1
    refine Or.inl ⟨⟨hl, hf.2⟩, fun hd => ?_⟩
    cases hd.1
    exact hno ⟨rfl, hd.2⟩
  | tmr_callback id r hr =>
    refine Or.inl ⟨?_, fun hd => by cases hd.1⟩
    obtain ⟨T, -, -, -, -, he⟩ := h.expire hr
    rw [he] at hf
    split at hf
    · exact hf
    · have hf' : (s.resetSelf r.ptr).Holds t f := hf
      exact holds_of_resetSelf hf'

/-- a timer that is not released holds its callback, or an expiry has handed it to the queue -/
theorem holds_keep (h : Sound s) {o : TimerOp} (hs : s.step o = some s') (hf : s.Holds t f)
    (hno : ¬ s.Frees o t) : s'.Holds t f ∨ ∃ id, o = .tmr_callback id ∧ s.fired id = some (t, f) := by
  cases step_cases hs with
  | once ticks callback reply hg =>
    exact Or.inl ((holds_create false ticks callback reply).mpr (Or.inl hf))
  | periodic ticks callback reply hg =>
    exact Or.inl ((holds_create true ticks callback reply).mpr (Or.inl hf))
  | cancel u hu => exact Or.inl ((holds_cancel hu).mpr hf)
  | copy u hu => exact Or.inl ⟨(kept_copy hu).mpr hf.1, hf.2⟩
  | drop u ht =>
    refine Or.inl ⟨kept_drop.mpr ⟨hf.1, fun hd => ?_⟩, hf.2⟩
    obtain ⟨rfl, hd⟩ := hd
    exact hno ⟨rfl, hd⟩
  | tmr_callback id r hr =>
    obtain ⟨T, hT, -, -, -, he⟩ := h.expire hr
    rw [he]
    by_cases hu : r.ptr = t
    · refine Or.inr ⟨id, rfl, ?_⟩
      have hc : T.callback = f := by
        have hcb := hf.2
        rw [← hu, hT] at hcb
        exact Option.some.inj hcb
      show (s.reg id).bind _ = _
      rw [hr, Option.bind_some, hT, Option.map_some, hc, hu]
    · refine Or.inl ?_
      split
      · exact hf
      · show (s.resetSelf r.ptr).Holds t f
        exact holds_resetSelf hu hf

end Timers

/-! ## sockets -/

namespace Udp

/-- `t` has not been released, and its `callback` is `f`. -/
def Holds (u : Udp) (t : Nat) (f : Fn) : Prop :=
  u.Live t ∧ (u.objs[t]?).map UDPSocket.callback = some f

/-- The last handle of `t`, which does not own itself, is dropped. -/
def Frees (u : Udp) (o : UdpOp) (t : Nat) : Prop :=
  o = .drop t ∧ ¬ Live { u with handles := u.handles.erase t } t

end Udp

/-- the callback that a new socket is given -/
def UdpOp.given : UdpOp → Option Fn
  | .open_ _ callback _ => some callback
  | _ => none

namespace Udp
variable {u u' : Udp} {t : Nat} {f : Fn}

theorem holds_open (port : UInt16) (callback : Fn) (r : Replies)
    (h : (u.open_ port callback r).Holds t f) : u.Holds t f ∨ callback = f := by
  obtain ⟨hl, hf⟩ := h
  obtain hf | ⟨-, hf⟩ := member_push.mp hf
  · obtain hl | ⟨ht, -⟩ := (live_open u port callback r).mp hl
    · exact Or.inl ⟨hl, hf⟩
    · subst ht
      rw [List.getElem?_eq_none (Nat.le_refl _)] at hf
      cases hf
  · exact Or.inr hf

theorem holds_close {v : Nat} (hv : v ∈ u.handles) : (u.close v).Holds t f ↔ u.Holds t f := by
  cases hV : u.objs[v]? with
  | none => rw [close_none hV]
  | some V =>
    rw [close_eq hV]
    split
    · have hkept : (((u.issue v (.close V.id)).setSock V.id none).resetSelf v).Live t ↔ u.Live t :=
        kept_reset hv _
      refine and_congr hkept ?_
      show ((u.objs.modify v fun S => { S with self := false })[t]?).map UDPSocket.callback = _ ↔ _
      rw [member_modify]
      exact fun _ => rfl
    · exact Iff.rfl

theorem holds_sendto (v : Nat) (addr : String) (port : UInt16) (payload : List UInt8) (length : Nat)
    (reply : Int32) : (u.sendto v addr port payload length reply).1.Holds t f ↔ u.Holds t f := by
  obtain ⟨ho, hh, -⟩ := sendto_objs u v addr port payload length reply
  unfold Holds Live
  rw [ho, hh]

/-- a socket that still holds its callback has held it, and has not been released -/
theorem holds_back {o : UdpOp} (hs : u.step o = some u') (hf : u'.Holds t f) :
    u.Holds t f ∧ ¬ u.Frees o t ∨ o.given = some f := by
  cases step_cases hs with
  | open_ port callback r hr =>
    obtain hf | rfl := holds_open port callback r hf
    · exact Or.inl ⟨hf, fun hd => by cases hd.1⟩
    · exact Or.inr rfl
  | close v hv => exact Or.inl ⟨(holds_close hv).mp hf, fun hd => by cases hd.1⟩
  | sendto v addr port payload length reply ht =>
    exact Or.inl ⟨(holds_sendto ..).mp hf, fun hd => by cases hd.1⟩
  | sendtoString v addr port payload reply ht =>
    exact Or.inl ⟨(holds_sendto ..).mp hf, fun hd => by cases hd.1⟩
  | copy v hv => exact Or.inl ⟨⟨(kept_copy hv).mp hf.1, hf.2⟩, fun hd => by cases hd.1⟩
  | drop v ht =>
    obtain ⟨hl, hno⟩ := kept_drop.mp hf.1
    refine Or.inl ⟨⟨hl, hf.2⟩, fun hd => ?_⟩
    cases hd.1
    exact hno ⟨rfl, hd.2⟩

/-- a socket that is not released holds its callback -/
theorem holds_keep {o : UdpOp} (hs : u.step o = some u') (hf : u.Holds t f) (hno : ¬ u.Frees o t) :
    u'.Holds t f := by
  cases step_cases hs with
  | open_ port callback r hr =>
    exact ⟨(live_open u port callback r).mpr (Or.inl hf.1), member_push.mpr (Or.inl hf.2)⟩
  | close v hv => exact (holds_close hv).mpr hf
  | sendto v addr port payload length reply ht => exact (holds_sendto ..).mpr hf
  | sendtoString v addr port payload reply ht => exact (holds_sendto ..).mpr hf
  | copy v hv => exact ⟨(kept_copy hv).mpr hf.1, hf.2⟩
  | drop v ht =>
    refine ⟨kept_drop.mpr ⟨hf.1, fun hd => ?_⟩, hf.2⟩
    obtain ⟨rfl, hd⟩ := hd
    exact hno ⟨rfl, hd⟩

end Udp

/-! ## interrupts -/

namespace Gpio

theorem disable_irq_ptrs (g : Gpio) (pin : Pin) :
    (g.disable_irq pin).irq_ptrs = Function.update g.irq_ptrs pin.idx none := by
  unfold disable_irq
  split
  · rfl
  · next hn => exact (Function.update_eq_self_iff.mpr hn.symm).symm

theorem enable_irq_ptrs (g : Gpio) (pin : Pin) (edge : Nat) (callback : Option Fn) :
    (g.enable_irq pin edge callback).irq_ptrs = Function.update g.irq_ptrs pin.idx callback := by
  show Function.update (g.disable_irq pin).irq_ptrs pin.idx callback = _
  rw [disable_irq_ptrs, Function.update_idem]

theorem irq_callback_ptrs (g : Gpio) (idx : Nat) : (g.irq_callback idx).1.irq_ptrs = g.irq_ptrs := by
  unfold irq_callback
  split
  · split <;> rfl
  · rfl

/-- what an interrupt adds to the queue is an entry of the table -/
theorem irq_callback_entry {g : Gpio} {idx : Nat} {f : Fn} (h : (g.irq_callback idx).2 = some f) :
    g.irq_ptrs idx = some f := by
  unfold irq_callback at h
  split at h
  · split at h
    · next hf =>
      cases h
      exact hf
    · cases h
  · cases h

end Gpio

/-! ## all owners of a function object -/

namespace World

/-- `r` holds a `shared_ptr` to `f`. -/
def Owns (w : World) : Owner → Fn → Prop
  | .user g, f => g = f ∧ f ∈ w.fns
  | .task i, f => (w.tq.dyn_tq[i]?).map Task.target = some f
  | .irq idx, f => w.gpio.irq_ptrs idx = some f
  | .timer t, f => w.timers.Holds t f
  | .socket t, f => w.udp.Holds t f

/-- The step takes the `shared_ptr` of `r` away.  The return from a task pops the front of the
queue. -/
def Releases (w : World) : Act → Owner → Prop
  | .dropFn f, .user g => g = f ∧ f ∉ w.fns.erase f
  | .enable_irq pin _ _, .irq idx => idx = pin.idx
  | .disable_irq pin, .irq idx => idx = pin.idx
  | .timer o, .timer t => w.timers.Frees o t
  | .udp o, .socket t => w.udp.Frees o t
  | .ret, .task i => i = 0 ∧ ∃ t, w.stack.head? = some (.task t)
  | _, _ => False

def HasOwner (w : World) (f : Fn) : Prop := ∃ r, w.Owns r f

/-- Some owner of `f` is not released by the step. -/
def Spares (w : World) (a : Act) (f : Fn) : Prop := ∃ r, w.Owns r f ∧ ¬ w.Releases a r

end World

section
variable {w w' : World} {f : Fn}

theorem World.HasOwner.of_user (h : f ∈ w.fns) : w.HasOwner f := ⟨.user f, rfl, h⟩

/-- a step that leaves all owners alone -/
theorem owned_same {a : Act} (ho : ∀ r, w'.Owns r f ↔ w.Owns r f) (hn : ∀ r, ¬ w.Releases a r) :
    w'.HasOwner f ↔ w.Spares a f :=
  exists_congr fun r => (ho r).trans (and_iff_left (hn r)).symm

theorem owns_stack (st : List Frame) (r : Owner) :
    World.Owns { w with stack := st } r f ↔ w.Owns r f := by
  cases r <;> exact Iff.rfl

theorem owns_fireFront (r : Owner) : w.fireFront.Owns r f ↔ w.Owns r f := by
  unfold World.fireFront
  split
  · exact Iff.rfl
  · cases r <;> exact Iff.rfl

/-- a task that is added owns what another owner has owned before -/
theorem owned_add {a : Act} {g : Fn} (o : Origin) (hg : w.Spares a g) (hn : ∀ i, ¬ w.Releases a (.task i))
    (hq : w'.tq = w.tq.add g o)
    (ho : ∀ r, (∀ i, r ≠ .task i) → w'.Owns r f → w.Spares a f)
    (hk : ∀ r, (∀ i, r ≠ .task i) → w.Owns r f → ¬ w.Releases a r → w'.HasOwner f) :
    w'.HasOwner f ↔ w.Spares a f := by
  have htask : ∀ i, w'.Owns (.task i) f ↔ w.Owns (.task i) f ∨ i = w.tq.dyn_tq.length ∧ g = f := by
    intro i
    show (w'.tq.dyn_tq[i]?).map Task.target = some f ↔ _
    rw [hq]
    exact member_push
  constructor
  · intro h
    obtain ⟨r, hr⟩ := h
    cases r with
    | task i =>
      obtain hr | ⟨-, rfl⟩ := (htask i).mp hr
      · exact ⟨.task i, hr, hn i⟩
      · exact hg
    | _ => exact ho _ (fun i => by simp) hr
  · intro h
    obtain ⟨r, hr, hno⟩ := h
    cases r with
    | task i => exact ⟨.task i, (htask i).mpr (Or.inl hr)⟩
    | _ => exact hk _ (fun i => by simp) hr hno

/-- a step that leaves all owners of other kinds than `mk` alone -/
theorem owned_part {a : Act} (mk : Nat → Owner)
    (hsame : ∀ r, (∀ i, r ≠ mk i) → (w'.Owns r f ↔ w.Owns r f) ∧ ¬ w.Releases a r)
    (hb : ∀ i, w'.Owns (mk i) f → w.Spares a f)
    (hk : ∀ i, w.Owns (mk i) f → ¬ w.Releases a (mk i) → w'.HasOwner f) :
    w'.HasOwner f ↔ w.Spares a f := by
  constructor
  · intro h
    obtain ⟨r, ho⟩ := h
    by_cases hr : ∃ i, r = mk i
    · obtain ⟨i, rfl⟩ := hr
      exact hb i ho
    · obtain ⟨hs, hno⟩ := hsame r fun i hi => hr ⟨i, hi⟩
      exact ⟨r, hs.mp ho, hno⟩
  · intro h
    obtain ⟨r, ho, hno⟩ := h
    by_cases hr : ∃ i, r = mk i
    · obtain ⟨i, rfl⟩ := hr
      exact hk i ho hno
    · exact ⟨r, (hsame r fun i hi => hr ⟨i, hi⟩).1.mpr ho⟩

/-- the owners after an entry of `irq_ptrs` is overwritten -/
theorem owned_irq {a : Act} {g : Gpio} {pin : Pin} {callback : Option Fn}
    (hg : g.irq_ptrs = Function.update w.gpio.irq_ptrs pin.idx callback)
    (hc : ∀ f ∈ callback, f ∈ w.fns) (hr : ∀ idx, w.Releases a (.irq idx) ↔ idx = pin.idx)
    (hn : ∀ r, (∀ idx, r ≠ .irq idx) → ¬ w.Releases a r) :
    World.HasOwner { w with gpio := g } f ↔ w.Spares a f := by
  refine owned_part Owner.irq (fun r hi => ⟨?_, hn r hi⟩) (fun idx ho => ?_) (fun idx ho hno => ?_)
  · cases r with
    | irq idx => exact absurd rfl (hi idx)
    | _ => exact Iff.rfl
  · change g.irq_ptrs idx = some f at ho
    rw [hg] at ho
    by_cases hi : idx = pin.idx
    · rw [hi, Function.update_self] at ho
      exact ⟨.user f, ⟨rfl, hc f ho⟩, hn _ (fun i => by simp)⟩
    · rw [Function.update_of_ne hi] at ho
      exact ⟨.irq idx, ho, fun h => hi ((hr idx).mp h)⟩
  · refine ⟨.irq idx, ?_⟩
    show g.irq_ptrs idx = some f
    rw [hg, Function.update_of_ne fun hi => hno ((hr idx).mpr hi)]
    exact ho

theorem owned_dropFn {g : Fn} :
    World.HasOwner { w with fns := w.fns.erase g } f ↔ w.Spares (.dropFn g) f := by
  refine owned_part Owner.user (fun r hi => ?_) (fun k ho => ?_) (fun k ho hno => ?_)
  · cases r with
    | user k => exact absurd rfl (hi k)
    | _ => exact ⟨Iff.rfl, fun h => h⟩
  · obtain ⟨rfl, hf⟩ := ho
    refine ⟨.user k, ⟨rfl, List.mem_of_mem_erase hf⟩, fun hno => ?_⟩
    obtain ⟨rfl, hno⟩ := hno
    exact hno hf
  · obtain ⟨rfl, hf⟩ := ho
    refine .of_user ?_
    show k ∈ w.fns.erase g
    by_cases hk : k = g
    · subst hk
      exact not_not.mp fun hf' => hno ⟨rfl, hf'⟩
    · exact (List.mem_erase_of_ne hk).mpr hf

theorem owned_timer (h : w.timers.Sound) {o : TimerOp} {ts : Timers} (hm : w.mayTimer o = true)
    (hs : w.timers.step o = some ts) :
    World.HasOwner { w with timers := ts, tq := w.timerQueue o } f ↔ w.Spares (.timer o) f := by
  have given : ∀ g, o.given = some g → w.Spares (.timer o) g := by
    intro g hg
    refine ⟨.user g, ⟨rfl, ?_⟩, fun hno => hno⟩
    cases o with
    | once ticks callback reply =>
      cases hg
      exact List.contains_iff_mem.mp (Bool.and_eq_true_iff.mp hm).2
    | periodic ticks callback reply =>
      cases hg
      exact List.contains_iff_mem.mp (Bool.and_eq_true_iff.mp hm).2
    | _ => cases hg
  have back : ∀ t, ts.Holds t f → w.Spares (.timer o) f := by
    intro t ht
    obtain ⟨ho, hno⟩ | hg := Timers.holds_back h hs ht
    · exact ⟨.timer t, ho, hno⟩
    · exact given f hg
  by_cases hq : ∃ id t g, o = .tmr_callback id ∧ w.timers.fired id = some (t, g)
  · obtain ⟨id, t, g, rfl, hf⟩ := hq
    have hqueue : w.timerQueue (.tmr_callback id) = w.tq.add g (.timer t) := World.timerQueue_some hf
    -- the timer that an expiry is delivered to has not been released
    have hholds : w.timers.Holds t g := by
      obtain ⟨r, hr, hmap⟩ := Option.bind_eq_some_iff.mp hf
      obtain ⟨T, hT, he⟩ := Option.map_eq_some_iff.mp hmap
      cases he
      obtain ⟨T', hT', hself, -⟩ := h.expire hr
      exact ⟨Or.inr ⟨T', hT', hself⟩, by rw [hT]; rfl⟩
    refine owned_add (.timer t) ⟨.timer t, hholds, fun hno => by cases hno.1⟩ (fun i hno => hno) hqueue
      (fun r hr ho => ?_) (fun r hr ho hno => ?_)
    · cases r with
      | task i => exact absurd rfl (hr i)
      | timer u => exact back u ho
      | user k => exact ⟨.user k, ho, fun hno => hno⟩
      | irq idx => exact ⟨.irq idx, ho, fun hno => hno⟩
      | socket u => exact ⟨.socket u, ho, fun hno => hno⟩
    · cases r with
      | task i => exact absurd rfl (hr i)
      | timer u =>
        obtain ho | ⟨id', he, hf'⟩ := Timers.holds_keep h hs ho hno
        · exact ⟨.timer u, ho⟩
        · cases he
          rw [hf] at hf'
          cases hf'
          refine ⟨.task w.tq.dyn_tq.length, ?_⟩
          show ((w.timerQueue _).dyn_tq[_]?).map Task.target = _
          rw [hqueue]
          exact member_push.mpr (Or.inr ⟨rfl, rfl⟩)
      | user k => exact ⟨.user k, ho⟩
      | irq idx => exact ⟨.irq idx, ho⟩
      | socket u => exact ⟨.socket u, ho⟩
  · have hqueue : w.timerQueue o = w.tq := by
      unfold World.timerQueue
      split
      · next id =>
        split
        · next t g hf => exact absurd ⟨id, t, g, rfl, hf⟩ hq
        · rfl
      · rfl
    rw [hqueue]
    refine owned_part Owner.timer (fun r hi => ?_) back (fun u ho hno => ?_)
    · cases r with
      | timer u => exact absurd rfl (hi u)
      | _ => exact ⟨Iff.rfl, fun h => h⟩
    · obtain ho | ⟨id, he, hf⟩ := Timers.holds_keep h hs ho hno
      · exact ⟨.timer u, ho⟩
      · exact absurd ⟨id, u, f, he, hf⟩ hq

theorem owned_udp {o : UdpOp} {u : Udp} (hm : w.mayUdp o = true) (hs : w.udp.step o = some u) :
    World.HasOwner { w with udp := u } f ↔ w.Spares (.udp o) f := by
  refine owned_part Owner.socket (fun r hi => ?_) (fun t ho => ?_) (fun t ho hno => ?_)
  · cases r with
    | socket t => exact absurd rfl (hi t)
    | _ => exact ⟨Iff.rfl, fun h => h⟩
  · obtain ⟨ho, hno⟩ | hg := Udp.holds_back hs ho
    · exact ⟨.socket t, ho, hno⟩
    · refine ⟨.user f, ⟨rfl, ?_⟩, fun hno => hno⟩
      cases o with
      | open_ port callback r =>
        cases hg
        exact List.contains_iff_mem.mp (Bool.and_eq_true_iff.mp hm).2
      | _ => cases hg
  · exact ⟨.socket t, Udp.holds_keep hs ho hno⟩

/-- the task that has run is popped, and the next one becomes the front -/
theorem owned_pop {t : Task} {rest : List Frame} (hst : w.stack = .task t :: rest) :
    World.HasOwner { w with tq := w.tq.pop, stack := rest } f ↔ w.Spares .ret f := by
  refine owned_part Owner.task (fun r hi => ?_) (fun i ho => ?_) (fun i ho hno => ?_)
  · cases r with
    | task i => exact absurd rfl (hi i)
    | _ => exact ⟨Iff.rfl, fun h => h⟩
  · change (w.tq.dyn_tq.tail[i]?).map Task.target = some f at ho
    rw [List.getElem?_tail] at ho
    exact ⟨.task (i + 1), ho, fun h => by cases h.1⟩
  · cases i with
    | zero => exact absurd ⟨rfl, t, by rw [hst]; rfl⟩ hno
    | succ i =>
      refine ⟨.task i, ?_⟩
      show (w.tq.dyn_tq.tail[i]?).map Task.target = some f
      rw [List.getElem?_tail]
      exact ho

/-- the return from anything but a task releases nothing -/
theorem owned_return {c : Frame} {rest st : List Frame} (hst : w.stack = c :: rest)
    (hc : c.isTask = false) : World.HasOwner { w with stack := st } f ↔ w.Spares .ret f := by
  refine owned_same (owns_stack _) (fun r => ?_)
  cases r with
  | task i =>
    intro h
    obtain ⟨-, t, ht⟩ := h
    rw [hst] at ht
    cases ht
    cases hc
  | _ => exact fun h => h

/-- user code has the only `shared_ptr` to a new function object -/
theorem owned_mkFn {v : World} (hv : v = { w with fns := w.nextFn :: w.fns, nextFn := w.nextFn + 1 }) :
    v.HasOwner f ↔ w.Spares .mkFn f ∨ f = w.nextFn := by
  subst hv
  constructor
  · intro h
    obtain ⟨r, ho⟩ := h
    cases r with
    | user k =>
      obtain ⟨rfl, hf⟩ := ho
      obtain rfl | hf := List.mem_cons.mp hf
      · exact Or.inr rfl
      · exact Or.inl ⟨.user k, ⟨rfl, hf⟩, fun hno => hno⟩
    | task i => exact Or.inl ⟨.task i, ho, fun hno => hno⟩
    | irq idx => exact Or.inl ⟨.irq idx, ho, fun hno => hno⟩
    | timer t => exact Or.inl ⟨.timer t, ho, fun hno => hno⟩
    | socket t => exact Or.inl ⟨.socket t, ho, fun hno => hno⟩
  · intro h
    obtain ⟨r, ho, -⟩ | rfl := h
    · cases r with
      | user k => exact .of_user (List.mem_cons_of_mem _ ho.2)
      | task i => exact ⟨.task i, ho⟩
      | irq idx => exact ⟨.irq idx, ho⟩
      | timer t => exact ⟨.timer t, ho⟩
      | socket t => exact ⟨.socket t, ho⟩
    · exact .of_user (List.mem_cons_self ..)

/-- a delivery by the kernel leaves the table alone and adds the callback of the entry -/
theorem owned_irq_callback {idx : Nat} :
    (w.irq_callback idx).HasOwner f ↔ w.Spares (.irq_callback idx) f := by
  have hptrs : (w.irq_callback idx).gpio.irq_ptrs = w.gpio.irq_ptrs := Gpio.irq_callback_ptrs ..
  have frame : ∀ r, (∀ i, r ≠ .task i) → ((w.irq_callback idx).Owns r f ↔ w.Owns r f) := by
    intro r hi
    cases r with
    | task i => exact absurd rfl (hi i)
    | irq k =>
      show (w.irq_callback idx).gpio.irq_ptrs k = some f ↔ _
      rw [hptrs]
      exact Iff.rfl
    | _ => exact Iff.rfl
  cases hf : (w.gpio.irq_callback idx).2 with
  | none =>
    refine owned_same (fun r => ?_) (fun r hno => hno)
    have hq : (w.irq_callback idx).tq = w.tq := World.irq_callback_none hf
    cases r with
    | task i =>
      show ((w.irq_callback idx).tq.dyn_tq[i]?).map Task.target = some f ↔ _
      rw [hq]
      exact Iff.rfl
    | _ => exact frame _ (fun i => by simp)
  | some g =>
    have hq : (w.irq_callback idx).tq = w.tq.add g (.irq idx) := World.irq_callback_some hf
    exact owned_add (.irq idx) ⟨.irq idx, Gpio.irq_callback_entry hf, fun hno => hno⟩
      (fun i hno => hno) hq (fun r hi ho => ⟨r, (frame r hi).mp ho, fun hno => hno⟩)
      (fun r hi ho _ => ⟨r, (frame r hi).mpr ho⟩)

/-- **The owners of a function object**: it has one after a step iff it had one before that the step
does not release, or the step has made it. -/
theorem owned_step {a : Act} (h : w.timers.Sound) (hs : w.step a = some w') :
    w'.HasOwner f ↔ w.Spares a f ∨ a = .mkFn ∧ f = w.nextFn := by
  have other : a ≠ .mkFn → (w'.HasOwner f ↔ w.Spares a f) →
      (w'.HasOwner f ↔ w.Spares a f ∨ a = .mkFn ∧ f = w.nextFn) := by
    intro ha h
    rw [h]
    exact ⟨Or.inl, fun h => h.elim id fun h => absurd h.1 ha⟩
  cases World.step_cases hs with
  | mkFn hc => exact (owned_mkFn rfl).trans (or_congr_right (and_iff_right rfl).symm)
  | copyFn g hc hg =>
    refine other (by simp) (owned_same (fun r => ?_) (fun r hno => hno))
    cases r with
    | user k =>
      refine and_congr Iff.rfl ⟨fun hf => ?_, List.mem_cons_of_mem _⟩
      obtain rfl | hf := List.mem_cons.mp hf
      · exact hg
      · exact hf
    | _ => exact Iff.rfl
  | dropFn g hg => exact other (by simp) owned_dropFn
  | add g hc hg =>
    refine other (by simp) (owned_add .user ⟨.user g, ⟨rfl, hg⟩, fun hno => hno⟩ (fun i hno => hno) rfl
      (fun r hi ho => ⟨r, ?_, fun hno => hno⟩) (fun r hi ho _ => ⟨r, ?_⟩))
    all_goals
      cases r with
      | task i => exact absurd rfl (hi i)
      | _ => exact ho
  | enable_irq pin edge callback hc hg =>
    refine other (by simp) (owned_irq (Gpio.enable_irq_ptrs ..) hg (fun idx => Iff.rfl) (fun r hi => ?_))
    cases r with
    | irq idx => exact absurd rfl (hi idx)
    | _ => exact fun hno => hno
  | disable_irq pin hc =>
    refine other (by simp) (owned_irq (Gpio.disable_irq_ptrs ..) (fun g hg => by cases hg)
      (fun idx => Iff.rfl) (fun r hi => ?_))
    cases r with
    | irq idx => exact absurd rfl (hi idx)
    | _ => exact fun hno => hno
  | timer o ts hm ht => exact other (by simp) (owned_timer h hm ht)
  | udp o u hm hu => exact other (by simp) (owned_udp hm hu)
  | i2c o s hm hi =>
    refine other (by simp) (owned_same (fun r => ?_) (fun r hno => hno))
    cases r <;> exact Iff.rfl
  | run_one hc hn => exact other (by simp) (owned_same owns_fireFront (fun r hno => hno))
  | fire rest hst => exact other (by simp) (owned_same owns_fireFront (fun r hno => hno))
  | pop t rest hst => exact other (by simp) (owned_pop hst)
  | wake b rest hst => exact other (by simp) (owned_return hst rfl)
  | waited rest hst hno => exact other (by simp) (owned_return hst rfl)
  | received s g p rest hst => exact other (by simp) (owned_return hst rfl)
  | irq_callback idx => exact other (by simp) owned_irq_callback
  | _ => exact other (by simp) (owned_same (owns_stack _) (fun r hno => hno))

end
end Storm
end Pharoah
