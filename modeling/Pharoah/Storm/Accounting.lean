import Mathlib.Data.List.Chain
import Pharoah.Storm.World

/-!
# The task queue: accounting

* `Turn`            what one step can do to the queue and to the stack;
* `World.unfired`   the queue without the task that is running;
* `Counted`         fired and unfired tasks are the added ones, in order, and the running task is
                    the front of the queue;
* `Idle`            the scheduler waits only on an empty queue;
* `additions`       the calls of `tq::add` in a run, read off its steps.

`queue_accounting`: **no task is lost, fired twice or reordered, each pop takes the task that was
fired, and the scheduler's own wait finds the queue empty**.
-/

namespace Pharoah
namespace Storm

open Lts

def Frame.isScheduler : Frame → Bool
  | .scheduler _ => true
  | _ => false

/-! ## what a step can do -/

/-- From queue and stack to queue and stack.  `W` says that deliveries happen inside waits, and `A`
what can be added. -/
inductive Turn (W : Prop) (A : Fn → Origin → Prop) : Tq → List Frame → Tq → List Frame → Prop where
  | same {q : Tq} {st : List Frame} : Turn W A q st q st
  | add {q : Tq} {st : List Frame} (f : Fn) (o : Origin) (ha : A f o)
      (h : W → ∀ c ∈ st.head?, c.isScheduler = false) : Turn W A q st (q.add f o) st
  | push {q : Tq} {st : List Frame} (c : Frame) (hc : c.isTask = false)
      (hs : c = .scheduler false ∧ st.any Frame.isTask = false ∨ c.isScheduler = false)
      (h : W → ∀ d ∈ st.head?, d.isScheduler = true → c = .wait) : Turn W A q st q (c :: st)
  | fire {q : Tq} {st : List Frame} (t : Task) (hq : q.dyn_tq.head? = some t)
      (hs : (st.any Frame.isTask = false ∧ ∀ c ∈ st.head?, c.isScheduler = false) ∨
        st.head? = some (.scheduler false)) : Turn W A q st (q.fire t) (.task t :: st)
  | popTask {q : Tq} {st : List Frame} (t : Task) : Turn W A q (.task t :: st) q.pop st
  | pop {q : Tq} {st : List Frame} (c : Frame) (hc : c.isTask = false) (hs : c.isScheduler = false)
      (h : c = .wait → ∀ d ∈ st.head?, d.isScheduler = false) : Turn W A q (c :: st) q st
  | rest {q : Tq} {st : List Frame} (hq : q.dyn_tq = []) :
      Turn W A q (.scheduler false :: st) q (.scheduler true :: st)
  | wake {q : Tq} {st : List Frame} (b : Bool) :
      Turn W A q (.wait :: .scheduler b :: st) q (.scheduler false :: st)

/-- what a step adds to the queue, if anything -/
def World.Adds (w : World) (a : Act) (f : Fn) (o : Origin) : Prop :=
  match a with
  | .add g => f = g ∧ o = .user
  | .timer (.tmr_callback id) => ∃ t, w.timers.fired id = some (t, f) ∧ o = .timer t
  | .irq_callback idx => (w.gpio.irq_callback idx).2 = some f ∧ o = .irq idx
  | _ => False

section
variable {w w' : World}

/-- user code does not run on top of the scheduler's loop -/
theorem World.code_top (hc : w.code = true) : ∀ d ∈ w.stack.head?, d.isScheduler = false := by
  intro d hd
  unfold World.code at hc
  split at hc
  · next h => rw [h] at hd; cases hd
  · next h => rw [h] at hd; cases hd; rfl
  · next h => rw [h] at hd; cases hd; rfl
  · next h => rw [h] at hd; cases hd; rfl
  · cases hc

theorem World.noTask_any (hn : w.noTask = true) : w.stack.any Frame.isTask = false := by
  unfold World.noTask at hn
  rwa [Bool.not_eq_true'] at hn

theorem wait_top {W : Prop} {st : List Frame} (h : W → st.head? = some .wait) :
    W → ∀ d ∈ st.head?, d.isScheduler = false := by
  intro hW d hd
  rw [h hW] at hd
  cases hd
  rfl

theorem fireFront_turn {W : Prop} {A : Fn → Origin → Prop}
    (hs : (w.stack.any Frame.isTask = false ∧ ∀ c ∈ w.stack.head?, c.isScheduler = false) ∨
      w.stack.head? = some (.scheduler false)) :
    Turn W A w.tq w.stack w.fireFront.tq w.fireFront.stack := by
  unfold World.fireFront
  split
  · exact .same
  · next t q hq => exact .fire t (by rw [hq]; rfl) hs

theorem timerQueue_turn {W : Prop} {o : TimerOp}
    (hW : W → (Act.timer o).delivers = true → w.stack.head? = some .wait) :
    Turn W (w.Adds (.timer o)) w.tq w.stack (w.timerQueue o) w.stack := by
  cases o with
  | tmr_callback id =>
    cases hf : w.timers.fired id with
    | none =>
      rw [World.timerQueue_none hf]
      exact .same
    | some tf =>
      rw [World.timerQueue_some hf]
      exact .add _ _ ⟨tf.1, hf, rfl⟩ (wait_top fun h => hW h rfl)
  | _ => exact .same

theorem i2cStack_turn {W : Prop} {A : Fn → Origin → Prop} {o : I2cOp} (hm : w.mayI2c o = true)
    (hW : W → (Act.i2c o).delivers = true → w.stack.head? = some .wait) :
    Turn W A w.tq w.stack w.tq (w.i2cStack o) := by
  cases o with
  | invoke t status =>
    refine .push _ rfl (Or.inr rfl) (fun h d hd hs => ?_)
    rw [hW h rfl] at hd
    cases hd
    cases hs
  | finish t =>
    show Turn W A w.tq w.stack w.tq w.stack.tail
    rw [World.mayI2c_finish hm]
    exact .pop _ rfl rfl (fun e => by cases e)
  | _ => exact .same

/-- **What one step can do** to the queue and to the stack. -/
theorem step_turn {a : Act} (hs : w.step a = some w') :
    Turn (InWaits w a) (w.Adds a) w.tq w.stack w'.tq w'.stack := by
  cases World.step_cases hs with
  | add f hc hf => exact .add f .user ⟨rfl, rfl⟩ (fun _ => World.code_top hc)
  | timer o ts hm ht => exact timerQueue_turn (fun h => h)
  | i2c o s hm hi => exact i2cStack_turn hm (fun h => h)
  | run_one hc hn => exact fireFront_turn (Or.inl ⟨World.noTask_any hn, World.code_top hc⟩)
  | scheduler hc hn =>
    refine .push _ rfl (Or.inl ⟨rfl, World.noTask_any hn⟩) (fun _ d hd hs => ?_)
    rw [World.code_top hc d hd] at hs
    cases hs
  | k_wait_callback hc => exact .push _ rfl (Or.inr rfl) (fun _ _ _ _ => rfl)
  | idle rest hst hq =>
    rw [hst]
    exact .rest hq
  | fire rest hst => exact fireFront_turn (Or.inr (by rw [hst]; rfl))
  | sleep rest hst => exact .push .wait rfl (Or.inr rfl) (fun _ _ _ _ => rfl)
  | pop t rest hst =>
    rw [hst]
    exact .popTask t
  | wake b rest hst =>
    rw [hst]
    exact .wake b
  | waited rest hst hno =>
    rw [hst]
    refine .pop .wait rfl rfl (fun _ d hd => ?_)
    cases rest with
    | nil => cases hd
    | cons c rest =>
      cases hd
      cases d with
      | scheduler b => exact absurd rfl (hno b rest)
      | _ => rfl
  | received s f p rest hst =>
    rw [hst]
    exact .pop _ rfl rfl (fun e => by cases e)
  | irq_callback idx =>
    cases hf : (w.gpio.irq_callback idx).2 with
    | none =>
      rw [World.irq_callback_none hf]
      exact .same
    | some f =>
      rw [World.irq_callback_some hf]
      exact .add _ _ ⟨hf, rfl⟩ (wait_top fun h => h rfl)
  | udp_callback id recv addrstr s f hr =>
    refine .push _ rfl (Or.inr rfl) (fun h d hd hs => ?_)
    rw [h rfl] at hd
    cases hd
    cases hs
  | _ => exact .same

end

/-! ## fired and unfired tasks -/

/-- the tasks in the queue that have not been fired: the one that is running is still its front -/
def unfired (q : Tq) (st : List Frame) : List Task :=
  if st.any Frame.isTask then q.dyn_tq.tail else q.dyn_tq

def World.unfired (w : World) : List Task := Storm.unfired w.tq w.stack

structure Counted (q : Tq) (st : List Frame) : Prop where
  accounts : q.fired ++ unfired q st = q.added
  front : ∀ t, Frame.task t ∈ st → q.dyn_tq.head? = some t
  below : st.Pairwise fun c d => c.isTask = true ∨ c.isScheduler = true → d.isTask = false
  serial : q.added.map Task.serial = List.range q.added.length

/-- what is added is unfired -/
theorem unfired_add {q : Tq} {st : List Frame} (hf : ∀ t, Frame.task t ∈ st → q.dyn_tq.head? = some t)
    (f : Fn) (o : Origin) :
    unfired (q.add f o) st = unfired q st ++ [⟨f, o, q.added.length⟩] := by
  unfold unfired
  by_cases h : st.any Frame.isTask = true
  · rw [if_pos h, if_pos h]
    obtain ⟨c, hc, hct⟩ := List.any_eq_true.mp h
    cases c with
    | task t =>
      have hd := hf t hc
      show (q.dyn_tq ++ [_]).tail = _
      cases hq : q.dyn_tq with
      | nil => rw [hq] at hd; cases hd
      | cons u rest => rfl
    | _ => cases hct
  · rw [if_neg h, if_neg h]
    rfl

theorem noTask_of_pairwise {c : Frame} {st : List Frame}
    (h : (c :: st).Pairwise fun c d => c.isTask = true ∨ c.isScheduler = true → d.isTask = false)
    (hc : c.isTask = true ∨ c.isScheduler = true) : st.any Frame.isTask = false := by
  rw [List.any_eq_false]
  intro d hd hdt
  have hno := (List.pairwise_cons.mp h).1 d hd hc
  rw [hno] at hdt
  cases hdt

theorem not_mem_of_noTask {st : List Frame} (h : st.any Frame.isTask = false) (t : Task) :
    Frame.task t ∉ st := fun hm => (List.any_eq_false.mp h) _ hm rfl

/-- a task is fired while no task runs -/
theorem fire_noTask {q : Tq} {st : List Frame} (h : Counted q st)
    (hs : (st.any Frame.isTask = false ∧ ∀ c ∈ st.head?, c.isScheduler = false) ∨
      st.head? = some (.scheduler false)) : st.any Frame.isTask = false := by
  obtain ⟨hn, -⟩ | hs := hs
  · exact hn
  · cases st with
    | nil => rfl
    | cons c rest =>
      cases hs
      rw [List.any_cons, noTask_of_pairwise h.below (Or.inr rfl)]
      rfl

theorem unfired_noTask {q : Tq} {st : List Frame} (hn : st.any Frame.isTask = false) :
    unfired q st = q.dyn_tq := if_neg (by rw [hn]; exact Bool.false_ne_true)

theorem unfired_push {q : Tq} {c : Frame} {st : List Frame} (hc : c.isTask = false) :
    unfired q (c :: st) = unfired q st := by
  unfold unfired
  rw [List.any_cons, hc, Bool.false_or]

theorem unfired_task {q : Tq} {t : Task} {st : List Frame} :
    unfired q (.task t :: st) = q.dyn_tq.tail := if_pos rfl

/-- **A turn keeps the count.** -/
theorem Counted.turn {W : Prop} {A : Fn → Origin → Prop} {q q' : Tq} {st st' : List Frame} (h : Counted q st)
    (ht : Turn W A q st q' st') : Counted q' st' := by
  have ⟨hacc, hfront, hbelow, hserial⟩ := h
  cases ht with
  | same => exact h
  | add f o _ _ =>
    refine ⟨?_, fun t ht => ?_, hbelow, ?_⟩
    · rw [unfired_add hfront, ← List.append_assoc]
      show q.fired ++ unfired q st ++ [_] = q.added ++ [_]
      rw [hacc]
    · have hd := hfront t ht
      show (q.dyn_tq ++ [_]).head? = some t
      rw [List.head?_append, hd]
      rfl
    · show (q.added ++ [_]).map Task.serial = List.range (q.added ++ [_]).length
      rw [List.map_append, hserial, List.length_append, List.length_singleton, List.range_succ]
      rfl
  | push c hc hs _ =>
    refine ⟨(unfired_push hc).symm ▸ hacc, fun t ht => ?_,
      List.pairwise_cons.mpr ⟨fun d hd hcd => ?_, hbelow⟩, hserial⟩
    · obtain he | ht := List.mem_cons.mp ht
      · rw [← he] at hc
        cases hc
      · exact hfront t ht
    · obtain ⟨-, hn⟩ | hs := hs
      · exact Bool.eq_false_iff.mpr (List.any_eq_false.mp hn d hd)
      · rw [hc, hs] at hcd
        obtain hcd | hcd := hcd <;> cases hcd
  | fire t hq hs =>
    have hn := fire_noTask h hs
    refine ⟨?_, fun u hu => ?_, List.pairwise_cons.mpr ⟨fun d hd _ => ?_, hbelow⟩, hserial⟩
    · rw [unfired_noTask hn] at hacc
      rw [unfired_task]
      show (q.fired ++ [t]) ++ q.dyn_tq.tail = q.added
      rw [← hacc, List.append_assoc]
      cases hd : q.dyn_tq with
      | nil => rw [hd] at hq; cases hq
      | cons u rest => rw [hd] at hq; cases hq; rfl
    · obtain he | hu := List.mem_cons.mp hu
      · cases he
        exact hq
      · exact absurd hu (not_mem_of_noTask hn u)
    · exact Bool.eq_false_iff.mpr (List.any_eq_false.mp hn d hd)
  | popTask t =>
    have hn : st'.any Frame.isTask = false := noTask_of_pairwise hbelow (Or.inl rfl)
    refine ⟨?_, fun u hu => absurd hu (not_mem_of_noTask hn u), (List.pairwise_cons.mp hbelow).2,
      hserial⟩
    rw [unfired_task] at hacc
    rw [unfired_noTask hn]
    exact hacc
  | pop c hc hs _ =>
    exact ⟨unfired_push hc ▸ hacc, fun t ht => hfront t (List.mem_cons_of_mem _ ht),
      (List.pairwise_cons.mp hbelow).2, hserial⟩
  | rest hq =>
    refine ⟨hacc, fun t ht => ?_, ?_, hserial⟩
    · obtain he | ht := List.mem_cons.mp ht
      · cases he
      · exact hfront t (List.mem_cons_of_mem _ ht)
    · exact List.pairwise_cons.mpr (List.pairwise_cons.mp hbelow)
  | wake b =>
    refine ⟨hacc, fun t ht => ?_, ?_, hserial⟩
    · obtain he | ht := List.mem_cons.mp ht
      · cases he
      · exact hfront t (List.mem_cons_of_mem _ (List.mem_cons_of_mem _ ht))
    · exact List.pairwise_cons.mpr (List.pairwise_cons.mp (List.pairwise_cons.mp hbelow).2)

/-! ## the scheduler's wait -/

structure Idle (q : Tq) (st : List Frame) : Prop where
  empty : st.head? = some (.scheduler true) → q.dyn_tq = []
  above : st.IsChain fun c d => d = .scheduler true → c = .wait

/-- **A turn of a kernel that delivers inside waits** keeps the scheduler's wait on the empty queue. -/
theorem Idle.turn {W : Prop} {A : Fn → Origin → Prop} {q q' : Tq} {st st' : List Frame} (h : Idle q st)
    (ht : Turn W A q st q' st') (hW : W) : Idle q' st' := by
  obtain ⟨hempty, habove⟩ := h
  cases ht with
  | same => exact ⟨hempty, habove⟩
  | add f o _ hadd =>
    refine ⟨fun he => ?_, habove⟩
    have hno := hadd hW _ he
    cases hno
  | push c hc hs hp =>
    refine ⟨fun he => ?_, List.isChain_cons.mpr ⟨fun d hd hds => ?_, habove⟩⟩
    · cases he
      obtain ⟨he, -⟩ | hs := hs
      · cases he
      · cases hs
    · exact hp hW d hd (hds ▸ rfl)
  | fire t hq hs =>
    refine ⟨fun he => (by cases he), List.isChain_cons.mpr ⟨fun d hd hds => ?_, habove⟩⟩
    subst hds
    obtain ⟨-, hs⟩ | hs := hs
    · have hno := hs _ hd
      cases hno
    · rw [hs] at hd
      cases hd
  | popTask t =>
    obtain ⟨htop, habove⟩ := List.isChain_cons.mp habove
    exact ⟨fun he => (by cases htop _ he rfl), habove⟩
  | pop c hc hs hp =>
    obtain ⟨htop, habove⟩ := List.isChain_cons.mp habove
    refine ⟨fun he => ?_, habove⟩
    have hno := hp (htop _ he rfl) _ he
    cases hno
  | rest hq =>
    obtain ⟨htop, habove⟩ := List.isChain_cons.mp habove
    refine ⟨fun _ => hq, List.isChain_cons.mpr ⟨fun d hd hds => ?_, habove⟩⟩
    have hno := htop d hd hds
    cases hno
  | wake b =>
    obtain ⟨htop, habove⟩ := List.isChain_cons.mp (List.isChain_cons.mp habove).2
    refine ⟨fun he => (by cases he), List.isChain_cons.mpr ⟨fun d hd hds => ?_, habove⟩⟩
    have hno := htop d hd hds
    cases hno

/-! ## the calls of `tq::add` -/

/-- the callback of a task, and who added it -/
def Task.call (t : Task) : Fn × Origin := (t.target, t.origin)

/-- the calls of `tq::add` that a step makes: user code's own, the one of `Timer::fire`, and the one of
`irq_callback` -/
def World.adding (w : World) : Act → List (Fn × Origin)
  | .add f => [(f, .user)]
  | .timer (.tmr_callback id) => (w.timers.fired id).toList.map fun tf => (tf.2, .timer tf.1)
  | .irq_callback idx => (w.gpio.irq_callback idx).2.toList.map fun f => (f, .irq idx)
  | _ => []

/-- those of a run, in order -/
def additions (w : World) : List Act → List (Fn × Origin)
  | [] => []
  | a :: as => w.adding a ++ (w.step a).elim [] fun w' => additions w' as

section
variable {w w' : World}

theorem call_add (q : Tq) (f : Fn) (o : Origin) :
    (q.add f o).added.map Task.call = q.added.map Task.call ++ [(f, o)] := List.map_append

/-- a step adds what it calls `tq::add` with -/
theorem added_step {a : Act} (hs : w.step a = some w') :
    w'.tq.added.map Task.call = w.tq.added.map Task.call ++ w.adding a := by
  have fire : w.fireFront.tq.added = w.tq.added := by
    unfold World.fireFront
    split <;> rfl
  cases World.step_cases hs with
  | add f hc hf => exact call_add w.tq f .user
  | timer o ts hm ht =>
    cases o with
    | tmr_callback id =>
      show (w.timerQueue (.tmr_callback id)).added.map Task.call = _ ++ (w.timers.fired id).toList.map _
      cases hf : w.timers.fired id with
      | none =>
        rw [World.timerQueue_none hf]
        exact (List.append_nil _).symm
      | some tf =>
        rw [World.timerQueue_some hf]
        exact call_add ..
    | _ => exact (List.append_nil _).symm
  | run_one hc hn =>
    rw [fire]
    exact (List.append_nil _).symm
  | fire rest hst =>
    rw [fire]
    exact (List.append_nil _).symm
  | irq_callback idx =>
    show (w.irq_callback idx).tq.added.map Task.call = _ ++ (w.gpio.irq_callback idx).2.toList.map _
    cases hf : (w.gpio.irq_callback idx).2 with
    | none =>
      rw [World.irq_callback_none hf]
      exact (List.append_nil _).symm
    | some f =>
      rw [World.irq_callback_some hf]
      exact call_add ..
  | _ => exact (List.append_nil _).symm

theorem added_run {as : List Act} (hr : exec World.step w as = some w') :
    w'.tq.added.map Task.call = w.tq.added.map Task.call ++ additions w as := by
  induction as generalizing w with
  | nil =>
    rw [exec_nil.mp hr]
    exact (List.append_nil _).symm
  | cons a as ih =>
    obtain ⟨v, hs, hr⟩ := exec_cons.mp hr
    rw [ih hr, added_step hs, List.append_assoc]
    show _ = _ ++ (w.adding a ++ (w.step a).elim [] fun w' => additions w' as)
    rw [hs]
    rfl

end

/-! ## every run -/

/-- `run_one` pops the queue after it has fired `t`. -/
def Pops (w : World) (a : Act) (t : Task) : Prop := a = .ret ∧ w.stack.head? = some (.task t)

/-- The loop of `scheduler` calls `k_wait_callback`. -/
def OwnWait (w : World) (a : Act) : Prop :=
  a = .schedule ∧ w.stack.head? = some (.scheduler true)

theorem Counted.init : Counted ({} : World).tq ({} : World).stack :=
  ⟨rfl, fun _ ht => (by cases ht), List.Pairwise.nil, rfl⟩

theorem Idle.init : Idle ({} : World).tq ({} : World).stack :=
  ⟨fun he => (by cases he), List.isChain_nil⟩

theorem counted {as : List Act} {w : World} (hr : World.runs as = some w) : Counted w.tq w.stack :=
  Lts.invariant (I := fun w : World => Counted w.tq w.stack)
    (fun _ _ _ h hs => h.turn (step_turn hs)) Counted.init hr

/-- **Task queue accounting.**  After every run the fired tasks, the running one included, and the
unfired ones are the added tasks in order, one for each call of `tq::add` in the run; every pop takes
the task that was fired; and when the kernel delivers inside waits only, the scheduler waits only on
an empty queue. -/
theorem queue_accounting (as : List Act) (hk : Along World.step InWaits {} as) :
    (∀ w, World.runs as = some w →
      w.tq.fired ++ w.unfired = w.tq.added ∧ (w.tq.added.map Task.serial).Nodup ∧
        w.tq.added.map Task.call = additions {} as) ∧
    Along World.step (fun w a => ∀ t, Pops w a t → w.tq.dyn_tq.head? = some t) {} as ∧
    Along World.step (fun w a => OwnWait w a → w.tq.dyn_tq = []) {} as := by
  refine ⟨fun w hr => ?_, ?_, ?_⟩
  · have hc := counted hr
    exact ⟨hc.accounts, hc.serial ▸ List.nodup_range, added_run hr⟩
  · refine hk.of_invariant (I := fun w : World => Counted w.tq w.stack)
      (fun _ _ _ h _ hs => h.turn (step_turn hs)) (fun w a h _ t ht => ?_) Counted.init
    exact h.front t (List.mem_of_mem_head? ht.2)
  · refine hk.of_invariant (I := fun w : World => Idle w.tq w.stack)
      (fun _ _ _ h hW hs => h.turn (step_turn hs) hW) (fun w a h _ hw => ?_) Idle.init
    exact h.empty hw.2

/-- two tasks; the first adds a third, waits, and is interrupted by D2 -/
def busyRun : List Act :=
  [.mkFn, .add 0, .add 0, .enable_irq ⟨2, 0x0010⟩ 1 (some 0), .scheduler, .schedule, .add 0,
   .k_wait_callback, .irq_callback 2, .ret, .ret, .schedule, .ret, .schedule, .ret, .schedule, .ret,
   .schedule, .schedule]

instance (w : World) (a : Act) : Decidable (InWaits w a) :=
  inferInstanceAs (Decidable (_ → _))

theorem queue_accounting_busy :
    (World.runs busyRun).isSome = true ∧ (∀ w, World.runs busyRun = some w →
      w.tq.fired ++ w.unfired = w.tq.added ∧ (w.tq.added.map Task.serial).Nodup ∧
        w.tq.added.map Task.call = additions {} busyRun) ∧
    Along World.step (fun w a => ∀ t, Pops w a t → w.tq.dyn_tq.head? = some t) {} busyRun ∧
    Along World.step (fun w a => OwnWait w a → w.tq.dyn_tq = []) {} busyRun :=
  ⟨by decide, queue_accounting busyRun (by decide)⟩

example : additions {} busyRun = [(0, .user), (0, .user), (0, .user), (0, .irq 2)] := by decide

end Storm
end Pharoah
