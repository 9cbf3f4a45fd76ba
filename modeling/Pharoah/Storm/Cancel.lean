import Pharoah.Storm.Accounting
import Pharoah.Storm.TimerLife

/-!
# Timers: nothing fires after a cancel?

`cancel` tells the kernel to stop and leaves the task queue alone, so a task that an expiry has
already put there is still fired.

* `Turn.unfired`   what is unfired was unfired before or has just been added, and what is fired was
                   unfired;
* `Purged`         the condition: a timer that is cancelled has no unfired task in the queue;
* `Silent`         what holds from such a cancel on;
* `drains`         a task in the queue can be fired by going on.

`no_callback_after_cancel`: **in a run in which every cancel is `Purged`, no task of a cancelled timer
is fired**; `unpurged_fires`: **after any other cancel one can be**.
-/

namespace Pharoah
namespace Storm

open Lts

/-! ## what is fired was unfired -/

theorem Turn.unfired {W : Prop} {A : Fn → Origin → Prop} {q q' : Tq} {st st' : List Frame}
    (ht : Turn W A q st q' st') (h : Counted q st) :
    (∀ x ∈ unfired q' st', x ∈ Storm.unfired q st ∨ A x.target x.origin) ∧
      (q'.fired = q.fired ∨ ∃ x ∈ Storm.unfired q st, q'.fired = q.fired ++ [x]) := by
  cases ht with
  | same => exact ⟨fun x hx => Or.inl hx, Or.inl rfl⟩
  | add f o ha _ =>
    refine ⟨fun x hx => ?_, Or.inl rfl⟩
    rw [unfired_add h.front] at hx
    obtain hx | hx := List.mem_append.mp hx
    · exact Or.inl hx
    · rw [List.mem_singleton.mp hx]
      exact Or.inr ha
  | push c hc _ _ =>
    rw [unfired_push hc]
    exact ⟨fun x hx => Or.inl hx, Or.inl rfl⟩
  | fire t hq hs =>
    have hn := fire_noTask h hs
    have ht : t ∈ Storm.unfired q st := by
      rw [unfired_noTask hn]
      exact List.mem_of_mem_head? hq
    refine ⟨fun x hx => Or.inl ?_, Or.inr ⟨t, ht, rfl⟩⟩
    rw [unfired_noTask hn]
    exact List.mem_of_mem_tail hx
  | popTask t =>
    have hn : st'.any Frame.isTask = false := noTask_of_pairwise h.below (Or.inl rfl)
    refine ⟨fun x hx => Or.inl ?_, Or.inl rfl⟩
    rw [unfired_noTask hn] at hx
    exact hx
  | pop c hc _ _ =>
    rw [unfired_push hc]
    exact ⟨fun x hx => Or.inl hx, Or.inl rfl⟩
  | rest hq => exact ⟨fun x hx => Or.inl hx, Or.inl rfl⟩
  | wake b => exact ⟨fun x hx => Or.inl hx, Or.inl rfl⟩

/-! ## after a cancel -/

def Act.cancelled : Act → Option Nat
  | .timer (.cancel t) => some t
  | _ => none

/-- The timer that is cancelled has no unfired task in the queue. -/
def Purged (w : World) (a : Act) : Prop :=
  ∀ t ∈ a.cancelled, ∀ x ∈ w.unfired, x.origin ≠ .timer t

instance (w : World) (a : Act) : Decidable (Purged w a) :=
  inferInstanceAs (Decidable (∀ t ∈ a.cancelled, _))

/-- From the `n`th firing on no task of `t` has been fired, and none is to come. -/
structure Silent (t n : Nat) (w : World) : Prop where
  counted : Counted w.tq w.stack
  sound : w.timers.Sound
  ended : w.timers.Ended t
  unfired : ∀ x ∈ w.unfired, x.origin ≠ .timer t
  length : n ≤ w.tq.fired.length
  fired : ∀ x ∈ w.tq.fired.drop n, x.origin ≠ .timer t

section
variable {w w' : World} {t n : Nat}

/-- nothing is delivered to a timer that has ended -/
theorem ended_adds (hs : w.timers.Sound) (he : w.timers.Ended t) {a : Act} {f : Fn} {o : Origin}
    (ha : w.Adds a f o) : o ≠ .timer t := by
  rintro rfl
  unfold World.Adds at ha
  split at ha
  · cases ha.2
  · next id =>
    obtain ⟨u, hf, hu⟩ := ha
    cases hu
    obtain ⟨r, hreg, hr⟩ := Option.bind_eq_some_iff.mp hf
    obtain ⟨T, hT, hr⟩ := Option.map_eq_some_iff.mp hr
    cases hr
    obtain ⟨U, hU, hself, -⟩ :=
      Timers.claim_eq.mp (hs.backed r.ptr id (Timers.table_eq.mpr ⟨r, hreg, rfl⟩))
    obtain ⟨U', hU', hself'⟩ := he
    rw [hU] at hU'
    cases hU'
    rw [hself] at hself'
    cases hself'
  · cases ha.2
  · exact ha

theorem ended_step {a : Act} (h : w.timers.Ended t) (hs : w.step a = some w') :
    w'.timers.Ended t := ended_run h (exec_single hs)

/-- **Silence lasts.** -/
theorem Silent.step (h : Silent t n w) {a : Act} (hs : w.step a = some w') : Silent t n w' := by
  have hturn := step_turn hs
  obtain ⟨hun, hfi⟩ := hturn.unfired h.counted
  refine ⟨h.counted.turn hturn, sound_step h.sound hs, ended_step h.ended hs, fun x hx => ?_, ?_, ?_⟩
  · obtain hx | hx := hun x hx
    · exact h.unfired x hx
    · exact ended_adds h.sound h.ended hx
  · obtain hf | ⟨x, -, hf⟩ := hfi
    · exact hf ▸ h.length
    · rw [hf, List.length_append]
      exact Nat.le_trans h.length (Nat.le_add_right ..)
  · obtain hf | ⟨x, hx, hf⟩ := hfi
    · exact hf ▸ h.fired
    · rw [hf, List.drop_append_of_le_length h.length]
      intro y hy
      obtain hy | hy := List.mem_append.mp hy
      · exact h.fired y hy
      · rw [List.mem_singleton.mp hy]
        exact h.unfired x hx

/-- a purged cancel begins it -/
theorem Silent.begin (hc : Counted w.tq w.stack) (h : w.timers.Sound)
    (hp : Purged w (.timer (.cancel t))) (hs : w.step (.timer (.cancel t)) = some w') :
    Silent t w'.tq.fired.length w' := by
  have hturn := step_turn hs
  refine ⟨hc.turn hturn, sound_step h hs, ends_ended h (Or.inl rfl) hs, fun x hx => ?_,
    Nat.le_refl _, fun x hx => ?_⟩
  · obtain hx | hx := (hturn.unfired hc).1 x hx
    · exact hp t rfl x hx
    · exact hx.elim
  · rw [List.drop_length] at hx
    cases hx

end

/-- **No callback after a cancel**: in a run in which every cancelled timer has no unfired task in
the queue, nothing that is fired after a cancel comes from the timer that was cancelled. -/
theorem no_callback_after_cancel (as : List Act) (hp : Along World.step Purged {} as)
    (before after : List Act) (t : Nat) (ha : as = before ++ .timer (.cancel t) :: after) (w w' : World)
    (hr : World.runs (before ++ [.timer (.cancel t)]) = some w)
    (hr' : Lts.exec World.step w after = some w') :
    ∀ x ∈ w'.tq.fired.drop w.tq.fired.length, x.origin ≠ .timer t := by
  obtain ⟨v, hv, hvw⟩ := exec_append.mp hr
  obtain ⟨w1, hs, hw1⟩ := exec_cons.mp hvw
  cases hw1
  subst ha
  have hbegin := Silent.begin (counted hv) (timers_sound hv) (hp.drop hv).1 hs
  exact (Lts.invariant (fun _ _ _ h hs => h.step hs) hbegin hr').fired

/-! ## a task in the queue can be fired -/

section
variable {w w' : World}

/-- `w'` is reached from `w` without adding or firing a task. -/
structure Unwinds (w w' : World) : Prop where
  run : ∃ as, Lts.exec World.step w as = some w'
  counted : Counted w'.tq w'.stack
  fired : w'.tq.fired = w.tq.fired
  added : w'.tq.added = w.tq.added

theorem Unwinds.unfired (hc : Counted w.tq w.stack) (h : Unwinds w w') : w'.unfired = w.unfired := by
  have h1 : w'.tq.fired ++ w'.unfired = w'.tq.added := h.counted.accounts
  have h2 : w.tq.fired ++ w.unfired = w.tq.added := hc.accounts
  rw [h.fired, h.added, ← h2] at h1
  exact List.append_cancel_left h1

theorem Unwinds.step {w1 : World} {a : Act} (hc : Counted w.tq w.stack) (hs : w.step a = some w1)
    (hf : w1.tq.fired = w.tq.fired) (ha : w1.tq.added = w.tq.added) : Unwinds w w1 :=
  ⟨⟨[a], exec_single hs⟩, hc.turn (step_turn hs), hf, ha⟩

theorem Unwinds.trans {w1 : World} (h1 : Unwinds w w1) (h2 : Unwinds w1 w') : Unwinds w w' := by
  obtain ⟨⟨as, ha⟩, -, hf1, ha1⟩ := h1
  obtain ⟨⟨bs, hb⟩, hc2, hf2, ha2⟩ := h2
  exact ⟨⟨as ++ bs, exec_trans ha hb⟩, hc2, hf2.trans hf1, ha2.trans ha1⟩

theorem ret_wait {rest : List Frame} (hst : w.stack = .wait :: rest)
    (hno : ∀ b rest', rest ≠ .scheduler b :: rest') :
    w.step .ret = some { w with stack := rest } := by
  show w.ret = _
  unfold World.ret
  split
  · next h => rw [hst] at h; cases h
  · next b rest' h => rw [hst] at h; cases h; exact absurd rfl (hno b rest')
  · next h => rw [hst] at h; cases h; rfl
  · next h => rw [hst] at h; cases h
  · next h _ => exact absurd hst (h rest)

/-- everything on the stack can return, down to `main` or to the loop of a scheduler -/
theorem unwinds (st : List Frame) (w : World) (hst : w.stack = st) (hc : Counted w.tq w.stack) :
    ∃ w', Unwinds w w' ∧ (w'.stack = [] ∨ w'.stack.head? = some (.scheduler false)) := by
  induction st generalizing w with
  | nil => exact ⟨w, ⟨⟨[], rfl⟩, hc, rfl, rfl⟩, Or.inl hst⟩
  | cons c rest ih =>
    have goOn : ∀ {a : Act} {w1 : World}, w.step a = some w1 → w1.stack = rest →
        w1.tq.fired = w.tq.fired → w1.tq.added = w.tq.added →
        ∃ w', Unwinds w w' ∧ (w'.stack = [] ∨ w'.stack.head? = some (.scheduler false)) := by
      intro a w1 hs hst1 hf ha
      have h1 := Unwinds.step hc hs hf ha
      obtain ⟨w', h2, hend⟩ := ih w1 hst1 h1.counted
      exact ⟨w', h1.trans h2, hend⟩
    cases c with
    | scheduler idle =>
      cases idle with
      | false => exact ⟨w, ⟨⟨[], rfl⟩, hc, rfl, rfl⟩, Or.inr (by rw [hst]; rfl)⟩
      | true =>
        have h1 : w.step .schedule = some { w with stack := .wait :: w.stack } := by
          show w.schedule = _
          simp only [World.schedule, hst]
        have h2 : World.step { w with stack := .wait :: w.stack } .ret =
            some { w with stack := .scheduler false :: rest } := by
          show World.ret _ = _
          simp only [World.ret, hst]
        have hu := Unwinds.step hc h1 rfl rfl
        exact ⟨_, hu.trans (Unwinds.step hu.counted h2 rfl rfl), Or.inr rfl⟩
    | wait =>
      by_cases hsch : ∃ b rest', rest = .scheduler b :: rest'
      · obtain ⟨b, rest', rfl⟩ := hsch
        have h1 : w.step .ret = some { w with stack := .scheduler false :: rest' } := by
          show w.ret = _
          simp only [World.ret, hst]
        exact ⟨_, Unwinds.step hc h1 rfl rfl, Or.inr rfl⟩
      · exact goOn (ret_wait hst fun b rest' he => hsch ⟨b, rest', he⟩) rfl rfl rfl
    | task t =>
      have h1 : w.step .ret = some { w with tq := w.tq.pop, stack := rest } := by
        show w.ret = _
        simp only [World.ret, hst]
      exact goOn h1 rfl rfl rfl
    | udp s f p =>
      have h1 : w.step .ret = some { w with stack := rest } := by
        show w.ret = _
        simp only [World.ret, hst]
      exact goOn h1 rfl rfl rfl
    | i2c op =>
      have h1 : w.step (.i2c (.finish op)) = some { w with i2c := w.i2c.finish op, stack := rest } := by
        simp [World.step, World.mayI2c, World.i2cStack, I2c.step, hst]
      exact goOn h1 rfl rfl rfl

/-- there the next task is fired -/
theorem fires_next (hc : Counted w.tq w.stack)
    (hst : w.stack = [] ∨ w.stack.head? = some (.scheduler false)) {x : Task} {l : List Task}
    (hx : w.unfired = x :: l) :
    ∃ a w', w.step a = some w' ∧ w'.tq.fired = w.tq.fired ++ [x] ∧ w'.tq.added = w.tq.added := by
  have hn : w.stack.any Frame.isTask = false := by
    obtain hst | hst := hst
    · rw [hst]
      rfl
    · exact fire_noTask hc (Or.inr hst)
  have hq : w.tq.dyn_tq = x :: l := (unfired_noTask hn).symm.trans hx
  have hf : w.fireFront = { w with tq := w.tq.fire x, stack := .task x :: w.stack } := by
    simp only [World.fireFront, hq]
  obtain hst | hst := hst
  · refine ⟨.run_one, w.fireFront, ?_, by rw [hf]; rfl, by rw [hf]; rfl⟩
    simp [World.step, World.code, World.noTask, hst]
  · refine ⟨.schedule, w.fireFront, ?_, by rw [hf]; rfl, by rw [hf]; rfl⟩
    show w.schedule = some w.fireFront
    cases hs : w.stack with
    | nil => rw [hs] at hst; cases hst
    | cons c rest =>
      rw [hs] at hst
      cases hst
      simp only [World.schedule, hs, hq]

/-- a task in the queue can be fired by going on -/
theorem drains (l : List Task) (w : World) (hc : Counted w.tq w.stack) {x : Task} {l' : List Task}
    (hx : w.unfired = l ++ x :: l') :
    ∃ as w', Lts.exec World.step w as = some w' ∧ w'.tq.fired = w.tq.fired ++ l ++ [x] := by
  induction l generalizing w with
  | nil =>
    obtain ⟨w1, h1, hst⟩ := unwinds w.stack w rfl hc
    obtain ⟨as, has⟩ := h1.run
    obtain ⟨a, w2, hs, hf, -⟩ := fires_next h1.counted hst ((h1.unfired hc).trans hx)
    refine ⟨as ++ [a], w2, exec_trans has (exec_single hs), ?_⟩
    rw [hf, h1.fired, List.append_nil]
  | cons y l ih =>
    obtain ⟨w1, h1, hst⟩ := unwinds w.stack w rfl hc
    obtain ⟨as, has⟩ := h1.run
    obtain ⟨a, w2, hs, hf, ha⟩ := fires_next h1.counted hst ((h1.unfired hc).trans hx)
    have hc2 : Counted w2.tq w2.stack := h1.counted.turn (step_turn hs)
    have hx2 : w2.unfired = l ++ x :: l' := by
      have h3 : w2.tq.fired ++ w2.unfired = w2.tq.added := hc2.accounts
      have h4 : w.tq.fired ++ w.unfired = w.tq.added := hc.accounts
      rw [hf, ha, h1.fired, h1.added, ← h4, hx, List.append_assoc] at h3
      exact (List.cons.inj (List.append_cancel_left h3)).2
    obtain ⟨bs, w', hb, hf'⟩ := ih w2 hc2 hx2
    refine ⟨as ++ [a] ++ bs, w', exec_trans (exec_trans has (exec_single hs)) hb, ?_⟩
    rw [hf', hf, h1.fired]
    simp

end

/-- **After a cancel that is not `Purged` a task of the timer can still be fired.** -/
theorem unpurged_fires {as : List Act} {w w' : World} (hr : World.runs as = some w) {t : Nat}
    (hp : ¬ Purged w (.timer (.cancel t))) (hs : w.step (.timer (.cancel t)) = some w') :
    ∃ bs v, Lts.exec World.step w' bs = some v ∧
      ∃ x ∈ v.tq.fired.drop w'.tq.fired.length, x.origin = .timer t := by
  obtain ⟨x, hx, ho⟩ : ∃ x ∈ w.unfired, x.origin = .timer t := by
    by_contra hno
    apply hp
    intro u hu x hx ho
    cases hu
    exact hno ⟨x, hx, ho⟩
  have hw' : w'.unfired = w.unfired := by
    cases World.step_cases hs
    rfl
  obtain ⟨l, l', hl⟩ := List.append_of_mem hx
  obtain ⟨bs, v, hb, hf⟩ := drains l w' ((counted hr).turn (step_turn hs)) (hw'.trans hl)
  refine ⟨bs, v, hb, x, ?_, ho⟩
  rw [hf, List.append_assoc, List.drop_left]
  simp

/-- the callback of a periodic timer runs, and cancels it -/
def purgedRun : List Act :=
  [.mkFn, .timer (.periodic 375 0 (some 7)), .scheduler, .schedule, .schedule,
   .timer (.tmr_callback 7), .ret, .schedule]

theorem no_callback_after_cancel_purged :
    ∃ w w', World.runs (purgedRun ++ [.timer (.cancel 0)]) = some w ∧
      Lts.exec World.step w [.ret, .schedule, .schedule] = some w' ∧
      ∀ x ∈ w'.tq.fired.drop w.tq.fired.length, x.origin ≠ .timer 0 :=
  ⟨_, _, rfl, rfl, no_callback_after_cancel (purgedRun ++ .timer (.cancel 0) :: [.ret, .schedule, .schedule])
    (by decide) purgedRun [.ret, .schedule, .schedule] 0 rfl _ _ rfl rfl⟩

/-- the timer expires, is cancelled, and only then its task is fired -/
def lateRun : List Act :=
  [.mkFn, .timer (.periodic 375 0 (some 7)), .k_wait_callback, .timer (.tmr_callback 7), .ret]

/-- The task that the expiry has queued is fired after the cancel. -/
theorem fires_after_cancel :
    ¬ ∀ (as before after : List Act) (t : Nat), as = before ++ .timer (.cancel t) :: after →
      ∀ w w', World.runs (before ++ [.timer (.cancel t)]) = some w →
        Lts.exec World.step w after = some w' →
        ∀ x ∈ w'.tq.fired.drop w.tq.fired.length, x.origin ≠ .timer t := by
  intro h
  exact h (lateRun ++ .timer (.cancel 0) :: [.run_one]) lateRun [.run_one] 0 rfl _ _ rfl rfl
    ⟨0, .timer 0, 0⟩ (List.mem_singleton.mpr rfl) rfl

end Storm
end Pharoah
