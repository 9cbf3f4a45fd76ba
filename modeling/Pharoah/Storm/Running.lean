import Pharoah.Storm.FnOwners
import Pharoah.Storm.I2cLife
import Pharoah.Storm.SocketLife

/-!
# Callbacks that are running

What runs for the kernel is a function object: the target of the task that was fired, the callback of
a socket, or the callback member of an operation.

* `World.nested`   one step, of user code that may also call `run_one` and `scheduler` inside a task;
                   the front of the queue is then the task itself, and is fired again;
* `Frame.Owned`    the function object that a frame executes has an owner;
* `Abandons`       the step drops the last that user code has of a closed socket, and of its callback,
                   while a packet is delivered to it;
* `PopsRunning`    a task that was fired inside another one returns, and `run_one` pops the queue;
* `Sane`, `Held`   what holds in every run, and while no step does either.

`running_owned`: **in a run in which no packet callback abandons its closed socket, and no task returns
inside another one, every running callback has an owner throughout**.
-/

namespace Pharoah
namespace Storm

open Lts

/-! ## calls inside a task -/

/-- One step, where a task may call `run_one` and `scheduler`. -/
def World.nested (w : World) : Act → Option World
  | .run_one => if w.code then some w.fireFront else none
  | .scheduler => if w.code then some { w with stack := .scheduler false :: w.stack } else none
  | a => w.step a

section
variable {w w' : World} {a : Act}

/-- outside of tasks it is the step of every other run -/
theorem World.nested_eq (hn : w.noTask = true) : w.nested a = w.step a := by
  cases a with
  | run_one =>
    show (if w.code = true then _ else _) = if (w.code && w.noTask) = true then _ else _
    rw [hn, Bool.and_true]
  | scheduler =>
    show (if w.code = true then _ else _) = if (w.code && w.noTask) = true then _ else _
    rw [hn, Bool.and_true]
  | _ => rfl

theorem World.nested_cases (hs : w.nested a = some w') :
    w.step a = some w' ∨ a = .run_one ∧ w' = w.fireFront ∨
      a = .scheduler ∧ w' = { w with stack := .scheduler false :: w.stack } := by
  cases a with
  | run_one =>
    obtain ⟨-, he⟩ := Option.ite_none_right_eq_some.mp hs
    cases he
    exact Or.inr (Or.inl ⟨rfl, rfl⟩)
  | scheduler =>
    obtain ⟨-, he⟩ := Option.ite_none_right_eq_some.mp hs
    cases he
    exact Or.inr (Or.inr ⟨rfl, rfl⟩)
  | _ => exact Or.inl hs

end

/-! ## owners, and steps that take them away -/

/-- The function object that a frame executes has an owner. -/
def Frame.Owned (w : World) : Frame → Prop
  | .task t => w.HasOwner t.target
  | .udp _ callback _ => w.HasOwner callback
  | .i2c op => w.i2c.Live op
  | _ => True

/-- The function objects that are being executed have owners. -/
def RunningOwned (w : World) : Prop := ∀ c ∈ w.stack, c.Owned w

def Frame.receiver : Frame → Option (Nat × Fn)
  | .udp sock callback _ => some (sock, callback)
  | _ => none

/-- the sockets that packets are being delivered to, with the callbacks that are running -/
def World.receiving (w : World) : List (Nat × Fn) := w.stack.filterMap Frame.receiver

/-- `self` of the socket is not set: it has been closed. -/
def Udp.closed (u : Udp) (t : Nat) : Bool := (u.objs[t]?).all fun S => !S.self

/-- While a packet is delivered to a closed socket, its last handle is dropped, and user code has no
other copy of the callback; or the last copy is, and there is no handle. -/
def Abandons (w : World) : Act → Prop
  | .udp (.drop t) => ∃ r ∈ w.receiving, r.1 = t ∧ w.udp.closed t = true ∧ w.udp.handles.count t = 1 ∧
      r.2 ∉ w.fns
  | .dropFn f => ∃ r ∈ w.receiving, r.2 = f ∧ w.udp.closed r.1 = true ∧ r.1 ∉ w.udp.handles ∧
      w.fns.count f = 1
  | _ => False

/-- A task returns while the task that it was fired in is running, and `run_one` pops the queue. -/
def PopsRunning (w : World) (a : Act) : Prop :=
  a = .ret ∧ w.stack.head?.any Frame.isTask = true ∧ w.stack.tail.any Frame.isTask = true

/-- No packet callback abandons its closed socket, and no task returns inside another one. -/
def Careful (w : World) (a : Act) : Prop := ¬ Abandons w a ∧ ¬ PopsRunning w a

instance (w : World) : (a : Act) → Decidable (Abandons w a)
  | .udp (.drop _) => inferInstanceAs (Decidable (∃ r ∈ w.receiving, _))
  | .dropFn _ => inferInstanceAs (Decidable (∃ r ∈ w.receiving, _))
  | .udp (.open_ ..) | .udp (.close _) | .udp (.sendto ..) | .udp (.sendtoString ..) | .udp (.copy _)
  | .mkFn | .copyFn _ | .add _ | .enable_irq .. | .disable_irq _ | .timer _ | .i2c _ | .run_one
  | .scheduler | .k_wait_callback | .schedule | .ret | .irq_callback _ | .udp_callback .. => .isFalse id

instance (w : World) (a : Act) : Decidable (Careful w a) :=
  inferInstanceAs (Decidable (¬ Abandons w a ∧ ¬ (_ ∧ _ ∧ _)))

/-! ## what holds in every run -/

structure Sane (w : World) : Prop where
  timers : w.timers.Sound
  sockets : w.udp.Registered
  ops : w.i2c.Life w.completing
  callback : ∀ r ∈ w.receiving, (w.udp.objs[r.1]?).map UDPSocket.callback = some r.2

/-- a socket keeps its callback -/
theorem Udp.callback_step {u u' : Udp} {o : UdpOp} (hs : u.step o = some u') {t : Nat} {f : Fn}
    (hf : (u.objs[t]?).map UDPSocket.callback = some f) : (u'.objs[t]?).map UDPSocket.callback = some f := by
  cases step_cases hs with
  | open_ port callback r hr => exact member_push.mpr (Or.inl hf)
  | close v hv =>
    cases hV : u.objs[v]? with
    | none =>
      rw [close_none hV]
      exact hf
    | some V =>
      rw [close_eq hV]
      split
      · show ((u.objs.modify v fun S => { S with self := false })[t]?).map UDPSocket.callback = _
        rw [member_modify]
        · exact hf
        · exact fun _ => rfl
      · exact hf
  | sendto v addr port payload length reply ht =>
    rw [(sendto_objs u v addr port payload length reply).1]
    exact hf
  | sendtoString v addr port payload reply ht =>
    show ((u.sendto v addr port payload payload.length reply).1.objs[t]?).map _ = _
    rw [(sendto_objs u v addr port payload payload.length reply).1]
    exact hf
  | copy v hv => exact hf
  | drop v hv => exact hf

/-- neither closed nor without a handle -/
theorem Udp.not_live_iff {u : Udp} {t : Nat} : ¬ u.Live t ↔ t ∉ u.handles ∧ u.closed t = true := by
  unfold Udp.Live Udp.closed
  rw [not_or]
  refine and_congr Iff.rfl ?_
  cases u.objs[t]? with
  | none => simp
  | some S => simp

section
variable {w w' : World} {a : Act}

theorem Frame.sees_receiver : Sees Frame.receiver := ⟨fun _ => rfl, rfl, fun _ => rfl⟩

theorem mem_receiving {t : Nat} {f : Fn} : (t, f) ∈ w.receiving ↔ ∃ p, Frame.udp t f p ∈ w.stack := by
  unfold World.receiving
  rw [List.mem_filterMap]
  constructor
  · intro h
    obtain ⟨c, hc, he⟩ := h
    cases c with
    | udp s g p =>
      cases he
      exact ⟨p, hc⟩
    | _ => cases he
  · intro h
    obtain ⟨p, hc⟩ := h
    exact ⟨_, hc, rfl⟩

/-- what is received begins or ends with no call on an operation -/
theorem receiving_i2c {o : I2cOp} (hs : w.step (.i2c o) = some w') : w'.receiving = w.receiving := by
  cases World.step_cases hs with
  | i2c _ s hm hi =>
    cases o with
    | finish t =>
      show w.stack.tail.filterMap Frame.receiver = w.stack.filterMap Frame.receiver
      rw [World.mayI2c_finish hm]
      rfl
    | _ => rfl

/-- A packet that is being delivered after a step was before, or is delivered by it, to a socket that the
kernel has the pointer of. -/
theorem receiving_step (h : w.udp.Registered) (hs : w.step a = some w') {r : Nat × Fn} (hr : r ∈ w'.receiving) :
    r ∈ w.receiving ∨ w'.udp = w.udp ∧ w.udp.Holds r.1 r.2 := by
  cases hb : a.i2cOp with
  | some o =>
    cases a with
    | i2c o' => exact Or.inl (receiving_i2c hs ▸ hr)
    | _ => cases hb
  | none =>
    unfold World.receiving at hr ⊢
    obtain hv | ⟨id, recv, addrstr, s, f, rfl, hrecv, hst⟩ | ⟨rfl, s, f, p, hst⟩ :=
      visible_step Frame.sees_receiver hs hb
    · exact Or.inl (hv ▸ hr)
    · rw [hst] at hr
      obtain rfl | hr := List.mem_cons.mp hr
      · exact Or.inr ⟨(step_frames hs).udp rfl, h.receiver hrecv⟩
      · exact Or.inl hr
    · refine Or.inl ?_
      rw [hst]
      exact List.mem_cons_of_mem _ hr

theorem Sane.init : Sane {} :=
  ⟨Timers.Sound.init, Udp.Registered.init, I2c.Life.init, fun r hr => by cases hr⟩

theorem Sane.step (h : Sane w) (hs : w.step a = some w') : Sane w' := by
  refine ⟨sound_step h.timers hs, registered_step h.sockets hs, life_step h.ops hs, fun r hr => ?_⟩
  obtain hr | ⟨hu, hholds⟩ := receiving_step h.sockets hs hr
  · cases hb : a.udpOp with
    | none =>
      rw [(step_frames hs).udp hb]
      exact h.callback r hr
    | some o =>
      cases a with
      | udp o' => exact Udp.callback_step (step_udp hs) (h.callback r hr)
      | _ => cases hb
  · rw [hu]
    exact hholds.2

/-- a step that only fires a task or begins a loop -/
theorem Sane.of_stack (h : Sane w) (q : Tq) {st : List Frame} (ho : st.filterMap Frame.op = w.completing)
    (hr : st.filterMap Frame.receiver = w.receiving) : Sane { w with tq := q, stack := st } := by
  refine ⟨h.timers, h.sockets, ?_, ?_⟩
  · show w.i2c.Life (st.filterMap Frame.op)
    rw [ho]
    exact h.ops
  · show ∀ r ∈ st.filterMap Frame.receiver, _
    rw [hr]
    exact h.callback

theorem Sane.fireFront (h : Sane w) : Sane w.fireFront := by
  have ho := fireFront_visible Frame.sees_op w
  have hr := fireFront_visible Frame.sees_receiver w
  obtain ⟨q, st, hq⟩ := w.fireFront_control
  rw [hq] at ho hr ⊢
  exact h.of_stack q ho hr

theorem Sane.nested (h : Sane w) (hs : w.nested a = some w') : Sane w' := by
  obtain hs | ⟨-, rfl⟩ | ⟨-, rfl⟩ := World.nested_cases hs
  · exact h.step hs
  · exact h.fireFront
  · exact h.of_stack w.tq rfl rfl

end

/-! ## tasks -/

/-- Every task that is running, one inside the other, is the front of the queue. -/
def Front (q : Tq) (st : List Frame) : Prop := ∀ t, Frame.task t ∈ st → q.dyn_tq.head? = some t

section
variable {w w' : World} {a : Act} {q : Tq} {st st' : List Frame}

theorem Front.push (h : Front q st) {c : Frame} (hc : c.isTask = false) : Front q (c :: st) := by
  intro t ht
  obtain he | ht := List.mem_cons.mp ht
  · rw [← he] at hc
    cases hc
  · exact h t ht

theorem Front.sub (h : Front q st) (hst : st' ⊆ st) : Front q st' := fun t ht => h t (hst ht)

theorem Front.add (h : Front q st) (f : Fn) (o : Origin) : Front (q.add f o) st := by
  intro t ht
  show (q.dyn_tq ++ [_]).head? = some t
  rw [List.head?_append, h t ht]
  rfl

theorem Front.fireFront (h : Front w.tq w.stack) : Front w.fireFront.tq w.fireFront.stack := by
  unfold World.fireFront
  split
  · exact h
  · next t rest hq =>
    intro u hu
    obtain he | hu := List.mem_cons.mp hu
    · cases he
      exact (congrArg List.head? hq).trans rfl
    · exact h u hu

theorem Front.step (h : Front w.tq w.stack) (hp : ¬ PopsRunning w a) (hs : w.step a = some w') :
    Front w'.tq w'.stack := by
  cases World.step_cases hs with
  | add f hc hf => exact h.add f .user
  | timer o ts hm ht =>
    show Front (w.timerQueue o) w.stack
    unfold World.timerQueue
    split
    · split
      · exact h.add _ _
      · exact h
    · exact h
  | i2c o s hm hi =>
    cases o with
    | invoke t status => exact h.push rfl
    | finish t => exact h.sub fun _ => List.mem_of_mem_tail
    | _ => exact h
  | run_one hc hn => exact h.fireFront
  | fire rest hst => exact h.fireFront
  | scheduler hc hn => exact h.push rfl
  | k_wait_callback hc => exact h.push rfl
  | sleep rest hst => exact h.push rfl
  | udp_callback id recv addrstr s f hr => exact h.push rfl
  | idle rest hst hq =>
    rw [hst] at h
    exact (h.sub (List.subset_cons_self _ _)).push rfl
  | pop t rest hst =>
    -- no other task is running
    intro u hu
    refine absurd ⟨rfl, ?_, ?_⟩ hp
    · rw [hst]
      rfl
    · rw [hst]
      exact List.any_eq_true.mpr ⟨_, hu, rfl⟩
  | wake b rest hst =>
    rw [hst] at h
    exact (h.sub fun _ hc => List.mem_cons_of_mem _ (List.mem_cons_of_mem _ hc)).push rfl
  | waited rest hst hno =>
    rw [hst] at h
    exact h.sub (List.subset_cons_self _ _)
  | received s f p rest hst =>
    rw [hst] at h
    exact h.sub (List.subset_cons_self _ _)
  | irq_callback idx =>
    show Front (w.irq_callback idx).tq w.stack
    unfold World.irq_callback
    dsimp only
    split
    · exact h.add _ _
    · exact h
  | _ => exact h

theorem Front.nested (h : Front w.tq w.stack) (hp : ¬ PopsRunning w a) (hs : w.nested a = some w') :
    Front w'.tq w'.stack := by
  obtain hs | ⟨-, rfl⟩ | ⟨-, rfl⟩ := World.nested_cases hs
  · exact h.step hp hs
  · exact h.fireFront
  · exact h.push rfl

end

/-! ## packets -/

/-- A socket that a packet is delivered to has not been released, or user code has its callback. -/
def Received (w : World) : Prop := ∀ r ∈ w.receiving, w.udp.Live r.1 ∨ r.2 ∈ w.fns

section
variable {w w' : World} {a : Act}

/-- the functions that user code has after a step -/
theorem fns_step (hs : w.step a = some w') : (∃ f, a = .dropFn f ∧ w'.fns = w.fns.erase f) ∨ w.fns ⊆ w'.fns := by
  obtain ⟨q, st, hq⟩ := w.fireFront_control
  cases World.step_cases hs with
  | dropFn f hf => exact Or.inl ⟨f, rfl, rfl⟩
  | mkFn hc => exact Or.inr (List.subset_cons_self _ _)
  | copyFn f hc hf => exact Or.inr (List.subset_cons_self _ _)
  | run_one hc hn =>
    rw [hq]
    exact Or.inr fun _ h => h
  | fire rest hst =>
    rw [hq]
    exact Or.inr fun _ h => h
  | _ => exact Or.inr fun _ h => h

theorem count_one_of_erase {l : List Nat} {x : Nat} (hx : x ∈ l) (hno : x ∉ l.erase x) : l.count x = 1 := by
  have hzero : (l.erase x).count x = 0 := List.count_eq_zero.mpr hno
  have hpos : 0 < l.count x := List.count_pos_iff.mpr hx
  rw [List.count_erase_self] at hzero
  omega

theorem not_mem_erase {l : List Nat} {x : Nat} (h : l.count x = 1) : x ∉ l.erase x := by
  rw [← List.count_eq_zero, List.count_erase_self, h]

theorem Received.step (h : Received w) (hsane : Sane w) (hno : ¬ Abandons w a) (hs : w.step a = some w') :
    Received w' := by
  intro r hr
  obtain hr | ⟨hu, hholds⟩ := receiving_step hsane.sockets hs hr
  · have hcallback := hsane.callback r hr
    obtain ⟨f, rfl, hfns⟩ | hfns := fns_step hs
    · -- a copy of a callback is dropped
      rw [(step_frames hs).udp rfl, hfns]
      refine or_iff_not_imp_left.mpr fun hlive => ?_
      have hmem : r.2 ∈ w.fns := (h r hr).resolve_left hlive
      by_cases hf : r.2 = f
      · by_contra hout
        obtain ⟨hhandle, hclosed⟩ := Udp.not_live_iff.mp hlive
        rw [hf] at hout hmem
        exact hno ⟨r, hr, hf, hclosed, hhandle, count_one_of_erase hmem hout⟩
      · exact (List.mem_erase_of_ne hf).mpr hmem
    · obtain hlive | hmem := h r hr
      · cases hb : a.udpOp with
        | none =>
          rw [(step_frames hs).udp hb]
          exact Or.inl hlive
        | some o =>
          cases a with
          | udp o' =>
            have hstep := step_udp hs
            refine or_iff_not_imp_right.mpr fun hout => ?_
            refine (Udp.holds_keep hstep ⟨hlive, hcallback⟩ fun hfrees => ?_).1
            -- its last handle is dropped
            obtain ⟨rfl, hdead⟩ := hfrees
            obtain ⟨hhandle, hclosed⟩ := Udp.not_live_iff.mp hdead
            have hmem : r.1 ∈ w.udp.handles := by
              by_contra hnone
              exact Udp.not_live_iff.mpr ⟨hnone, hclosed⟩ hlive
            exact hno ⟨r, hr, rfl, hclosed, count_one_of_erase hmem hhandle, fun hf => hout (hfns hf)⟩
          | _ => cases hb
      · exact Or.inr (hfns hmem)
  · rw [hu]
    exact Or.inl hholds.1

theorem Received.of_stack (h : Received w) (q : Tq) {st : List Frame}
    (hr : st.filterMap Frame.receiver = w.receiving) : Received { w with tq := q, stack := st } := by
  show ∀ r ∈ st.filterMap Frame.receiver, _
  rw [hr]
  exact h

theorem Received.nested (h : Received w) (hsane : Sane w) (hno : ¬ Abandons w a) (hs : w.nested a = some w') :
    Received w' := by
  obtain hs | ⟨-, rfl⟩ | ⟨-, rfl⟩ := World.nested_cases hs
  · exact h.step hsane hno hs
  · have hr := fireFront_visible Frame.sees_receiver w
    obtain ⟨q, st, hq⟩ := w.fireFront_control
    rw [hq] at hr ⊢
    exact h.of_stack q hr
  · exact h.of_stack w.tq rfl

end

/-! ## every run -/

/-- what holds while every step is careful -/
structure Held (w : World) : Prop where
  sane : Sane w
  front : Front w.tq w.stack
  received : Received w

section
variable {w w' : World} {a : Act}

theorem Held.init : Held {} := ⟨Sane.init, fun _ ht => (by cases ht), fun _ hr => (by cases hr)⟩

/-- **A careful step** keeps it. -/
theorem Held.step (h : Held w) (hc : Careful w a) (hs : w.nested a = some w') : Held w' :=
  ⟨h.sane.nested hs, h.front.nested hc.2 hs, h.received.nested h.sane hc.1 hs⟩

/-- A task is owned by the queue, a packet callback by its socket or by user code, and an operation by
itself. -/
theorem Held.owned (h : Held w) : RunningOwned w := by
  intro c hc
  cases c with
  | task t =>
    refine ⟨.task 0, ?_⟩
    show (w.tq.dyn_tq[0]?).map Task.target = some t.target
    rw [← List.head?_eq_getElem?, h.front t hc]
    rfl
  | udp t f p =>
    have hr : (t, f) ∈ w.receiving := mem_receiving.mpr ⟨p, hc⟩
    obtain hlive | hmem := h.received _ hr
    · exact ⟨.socket t, hlive, h.sane.callback _ hr⟩
    · exact .of_user hmem
  | i2c op => exact (h.sane.ops.running op (List.mem_filterMap.mpr ⟨_, hc, rfl⟩)).live
  | scheduler b => trivial
  | wait => trivial

end

section
variable {w w' : World} {a : Act}

/-- an owner after the step is one from before that the step does not release -/
theorem Sane.spares {f : Fn} (h : Sane w) (hs : w.step a = some w') (ha : a ≠ .mkFn) (howner : w'.HasOwner f) :
    w.Spares a f :=
  ((owned_step h.timers hs).mp howner).resolve_right fun hmk => ha hmk.1

/-- A callback that is abandoned goes on running without an owner, unless something that is neither user
code nor its socket has it. -/
theorem abandons_unowned (h : Sane w) (ha : Abandons w a) (hs : w.nested a = some w') :
    ∃ r ∈ w'.receiving, w'.HasOwner r.2 → ∃ o, w.Owns o r.2 ∧ (∀ g, o ≠ .user g) ∧ o ≠ .socket r.1 := by
  unfold Abandons at ha
  split at ha
  · next t =>
    obtain ⟨r, hr, rfl, hclosed, hcount, hout⟩ := ha
    have hs : w.step (.udp (.drop r.1)) = some w' := hs
    have hsame : w'.receiving = w.receiving := by
      cases World.step_cases hs
      rfl
    refine ⟨r, hsame ▸ hr, fun howner => ?_⟩
    obtain ⟨o, ho, hno⟩ := h.spares hs (by simp) howner
    refine ⟨o, ho, ?_, ?_⟩
    · rintro g rfl
      exact hout (ho.1 ▸ ho.2)
    · rintro rfl
      exact hno ⟨rfl, Udp.not_live_iff.mpr ⟨not_mem_erase hcount, hclosed⟩⟩
  · next f =>
    obtain ⟨r, hr, rfl, hclosed, hhandle, hcount⟩ := ha
    have hs : w.step (.dropFn r.2) = some w' := hs
    have hsame : w'.receiving = w.receiving := by
      cases World.step_cases hs
      rfl
    refine ⟨r, hsame ▸ hr, fun howner => ?_⟩
    obtain ⟨o, ho, hno⟩ := h.spares hs (by simp) howner
    refine ⟨o, ho, ?_, ?_⟩
    · rintro g rfl
      exact hno ⟨ho.1, not_mem_erase hcount⟩
    · rintro rfl
      exact Udp.not_live_iff.mpr ⟨hhandle, hclosed⟩ ho.1
  · cases ha

/-- After a return inside another task that one goes on running, and if anything has it, that is not the
entry of the queue that it was fired from. -/
theorem popsRunning_unowned (h : Sane w) (ha : PopsRunning w a) (hs : w.nested a = some w') :
    ∃ t, Frame.task t ∈ w'.stack ∧ (w'.HasOwner t.target → ∃ o, w.Owns o t.target ∧ ∀ i, o = .task i → i ≠ 0) := by
  obtain ⟨rfl, htop, hrest⟩ := ha
  have hs : w.step .ret = some w' := hs
  cases World.step_cases hs with
  | pop t rest hst =>
    rw [hst] at hrest
    obtain ⟨c, hc, hct⟩ := List.any_eq_true.mp hrest
    cases c with
    | task u =>
      refine ⟨u, hc, fun howner => ?_⟩
      obtain ⟨o, ho, hno⟩ := h.spares hs (by simp) howner
      refine ⟨o, ho, ?_⟩
      rintro i rfl rfl
      exact hno ⟨rfl, t, by rw [hst]; rfl⟩
    | _ => cases hct
  | wake b rest hst =>
    rw [hst] at htop
    cases htop
  | waited rest hst hno =>
    rw [hst] at htop
    cases htop
  | received s f p rest hst =>
    rw [hst] at htop
    cases htop

end

end Storm
end Pharoah
