import Pharoah.Future.Pieces
import Pharoah.Future.Style

/-!
# Futures: a reject that no handler catches

The closure that `bindforward` stores tests whether there is another one to call; the two reject
functions of `run` do not.

* `RejectsAt pre s calls`   in a run that made these calls, `s` is the future that rejects;
* `Dropped pre s r`         what the claim asks of such a run: it returns, and it has called no
                            handler and no body after that of `s`;
* `Chain.exec_dropped`, `Chain.exec_empty`   the two ways an uncaught reject can go.

`uncaught_dropped_iff`: **an uncaught reject is dropped exactly when its future has a
continuation**; the last future of a chain calls an empty `std::function`.
-/

namespace Pharoah
namespace Future

open Prog

section
variable {V : Type}

/-- the body calls its accept function on `args` before it returns -/
def Body.callsAccept (b : Body V) (args : List V) : Bool :=
  match b with
  | .accRej code => !(accepts (code args)).isEmpty
  | _ => false

/-- The future `s` rejects, and does not accept, wherever it is reached; those before it do not
reject. -/
structure RejectsAt (pre : Chain V) (s : Stage V) (calls : List (Event V)) : Prop where
  reached : ∃ a, Event.body s.this a ∈ calls
  rejects : ∀ a, Event.body s.this a ∈ calls →
    s.body.callsReject a = true ∧ s.body.callsAccept a = false
  before : ∀ p ∈ pre, ∀ a, Event.body p.this a ∈ calls → p.body.callsReject a = false

structure Dropped (pre : Chain V) (s : Stage V) (r : Seen V) : Prop where
  returns : r.result = .ok ()
  calls : ∀ e ∈ r.calls, ∃ p ∈ pre ++ [s], ∃ a, e = .body p.this a

/-! ## the rejecting future -/

theorem Shaped.caught_none {c : Chain V} (hs : Shaped c) (hn : nearest c = none) :
    Chain.caught c = none := by
  cases hx : Chain.caught c with
  | none => rfl
  | some x =>
    obtain ⟨s, hm, h1⟩ := hs.caught hx
    have h2 := List.findSome?_eq_none_iff.mp hn s hm
    rw [h1] at h2
    cases h2

/-- a future without a handler at or after it lacks a `nxtForward` exactly if it is the last -/
theorem Shaped.slot_empty {s : Stage V} {post : Chain V} (hs : Shaped (s :: post))
    (hn : nearest (s :: post) = none) : s.slot = .empty ↔ post = [] := by
  have hx : s.nxtF = none := List.findSome?_eq_none_iff.mp hn s (List.mem_cons_self ..)
  obtain ⟨h1, -⟩ := hs
  cases hslot : s.slot with
  | empty =>
    rw [hslot] at h1
    exact ⟨fun _ => h1.1, fun _ => rfl⟩
  | next =>
    rw [hslot] at h1
    exact ⟨fun h => (by cases h), fun h => absurd h h1⟩
  | handler x =>
    rw [hslot] at h1
    rw [show s.nxtF = some x from h1] at hx
    cases hx

/-- a body that was given no accept function calls none -/
theorem caughtCalls_none {c : Chain V} (hc : Chain.caught c = none) : caughtCalls c = [] := by
  unfold caughtCalls
  rw [hc]
  rfl

/-- With a continuation an uncaught reject returns, and so do the statements around it. -/
theorem Chain.exec_dropped (next : List V → A V Unit) {s : Stage V} (rest : Chain V)
    (hs : s.slot ≠ .empty) (hx : Chain.caught (s :: rest) = none) {acc : Bool}
    {code : List (Stmt V acc)} (ha : accepts code = []) (t : Trail V) :
    ∃ t', Chain.exec next (s :: rest) s.this code t = .ok () t' ∧ t'.trace = t.trace := by
  obtain ⟨t', n, h1, h2⟩ := Chain.exec_returns next rest hs ha t
  refine ⟨t', h1, ?_⟩
  rw [h2, caughtCalls_none hx, List.flatten_replicate_nil, List.append_nil]

/-- Without one the reject function calls an empty `nxtForward`. -/
theorem Chain.exec_empty (next : List V → A V Unit) {s : Stage V} (rest : Chain V)
    (hs : s.slot = .empty) {acc : Bool} {code : List (Stmt V acc)} (ha : accepts code = [])
    (hr : rejects code = true) (t : Trail V) :
    ∃ t', Chain.exec next (s :: rest) s.this code t = .error .badFunctionCall t' ∧
      t'.trace = t.trace := by
  induction code generalizing t with
  | nil => cases hr
  | cons st code ih =>
    cases st with
    | accept h vs => cases ha
    | reject es =>
      have h1 : Chain.reject (s :: rest) (!acc) t
          = .error .badFunctionCall (if !acc then t.setErrored s.this else t) := by
        rw [Chain.reject, bind_ok (modify_apply _ t), hs]
        rfl
      refine ⟨_, bind_error h1, ?_⟩
      cases acc <;> rfl
    | add task => exact ih ha hr (t.add ⟨acc, s.this, task⟩)

variable [Movable V]

theorem Chain.run_dropped {s : Stage V} {rest : Chain V} (hs : s.slot ≠ .empty)
    (hx : Chain.caught (s :: rest) = none) {args : List V} (hr : s.body.callsReject args = true)
    (ha : s.body.callsAccept args = false) (t : Trail V) :
    ∃ t', Chain.run (s :: rest) args t = .ok () t' ∧
      t'.trace = t.trace ++ [.body s.this args] := by
  rw [Chain.run, bind_ok (modify_apply _ t)]
  cases hb : s.body with
  | accRej code =>
    rw [hb] at ha
    exact Chain.exec_dropped (Chain.run rest) rest hs hx (by simpa [Body.callsAccept] using ha) _
  | rej r code =>
    obtain ⟨t₁, h1, h2⟩ := Chain.exec_dropped (Chain.run rest) rest hs hx (accepts_rej _)
      (t.emit (.body s.this args))
    have he := (Chain.exec_rejects (P := fun _ => True) (fun _ => trivial) (Chain.run rest) (s := s)
      rest (code args).1 (t.emit (.body s.this args))).2.1
    rw [h1] at he
    rw [hb] at hr
    obtain ⟨t₂, h3, h4⟩ := Chain.callbody_stop (Chain.run rest) rest.isEmpty s.this r (code args).2
      (t := t₁) (.inr (.inl (he.trans (by
        rw [show rejects (code args).1 = true from hr, Bool.or_true]))))
    exact ⟨t₂, (bind_ok h1).trans h3, by rw [h4.trace, h2]; rfl⟩
  | noFun r code =>
    rw [hb] at hr
    cases hr

theorem Chain.run_empty {s : Stage V} {rest : Chain V} (hs : s.slot = .empty) {args : List V}
    (hr : s.body.callsReject args = true) (ha : s.body.callsAccept args = false) (t : Trail V) :
    ∃ t', Chain.run (s :: rest) args t = .error .badFunctionCall t' ∧
      t'.trace = t.trace ++ [.body s.this args] := by
  rw [Chain.run, bind_ok (modify_apply _ t)]
  cases hb : s.body with
  | accRej code =>
    rw [hb] at ha hr
    exact Chain.exec_empty (Chain.run rest) rest hs (by simpa [Body.callsAccept] using ha) hr _
  | rej r code =>
    rw [hb] at hr
    obtain ⟨t₁, h1, h2⟩ := Chain.exec_empty (Chain.run rest) rest hs (accepts_rej _) hr
      (t.emit (.body s.this args))
    exact ⟨t₁, bind_error h1, h2⟩
  | noFun r code =>
    rw [hb] at hr
    cases hr

/-! ## the futures before it -/

theorem Chain.run_begins (s : Stage V) (rest : Chain V) (args : List V) (t : Trail V) :
    ∃ l, (final (Chain.run (s :: rest) args t)).trace = t.trace ++ .body s.this args :: l := by
  obtain ⟨l, hl, -⟩ := Chain.run_head s rest args t
  exact ⟨l, by rw [hl]; simp [Trail.emit]⟩

section
variable {P : List (Event V) → Option Err → Prop} (hnil : P [] none)
  (happ : ∀ l l' r, P l none → P l' r → P (l ++ l') r)
include hnil happ

/-- A run of a stage that does not reject makes the calls of runs of the rest. -/
theorem Chain.stage_logs {s : Stage V} {rest : Chain V} {args : List V}
    (hbody : P [.body s.this args] none)
    (hrej : s.body.callsReject args = true → ∀ l r, P (.body s.this args :: l) r)
    (hnext : ∀ vs, Logs Trail.trace P (Chain.run rest vs)) :
    Logs Trail.trace P (Chain.run (s :: rest) args) := by
  cases hr : s.body.callsReject args with
  | true =>
    intro t
    obtain ⟨l, hl⟩ := Chain.run_begins s rest args t
    exact ⟨_, hl, hrej hr l _⟩
  | false =>
    refine Logs.bind happ (Logs.modify (l := [.body s.this args]) (fun t => rfl) hbody) (fun _ => ?_)
    exact Chain.runBody_logs hnil happ hnext _ _ args (fun h => absurd h (by simp [hr]))

end

/-! ## the whole chain -/

section
omit [Movable V]

/-- as far as this call goes, `s` is the future that rejects -/
def Fits (pre : Chain V) (s : Stage V) : Event V → Prop
  | .body u a => (u = s.this → s.body.callsReject a = true ∧ s.body.callsAccept a = false) ∧
      ∀ p ∈ pre, u = p.this → p.body.callsReject a = false
  | .handler _ _ => True

theorem RejectsAt.fits {pre : Chain V} {s : Stage V} {calls : List (Event V)}
    (h : RejectsAt pre s calls) : ∀ e ∈ calls, Fits pre s e := by
  intro e he
  cases e with
  | body u a =>
    refine ⟨fun hu => ?_, fun p hp hu => ?_⟩
    · subst hu
      exact h.rejects a he
    · subst hu
      exact h.before p hp a he
  | handler x a => trivial

end

/-- Calls that `P` holds of, if they fit: along the futures before `s` it is enough to look at the
run of `s`. -/
theorem Chain.run_logs {pre : Chain V} {s : Stage V} {post : Chain V}
    {P : List (Event V) → Option Err → Prop} (hnil : P [] none)
    (happ : ∀ l l' r, P l none → P l' r → P (l ++ l') r)
    (hbody : ∀ p ∈ pre, ∀ a, P [.body p.this a] none)
    (hrej : ∀ p ∈ pre, ∀ a, p.body.callsReject a = true → ∀ l r, P (.body p.this a :: l) r)
    (hs : ∀ args, Logs Trail.trace P (Chain.run (s :: post) args)) (args : List V) :
    Logs Trail.trace P (Chain.run (pre ++ s :: post) args) := by
  induction pre generalizing args with
  | nil => exact hs args
  | cons p pre ih =>
    have h1 : p ∈ p :: pre := List.mem_cons_self ..
    exact Chain.stage_logs hnil happ (hbody p h1 args) (hrej p h1 args) (fun vs =>
      ih (fun p hp => hbody p (List.mem_cons_of_mem _ hp))
        (fun p hp => hrej p (List.mem_cons_of_mem _ hp)) vs)

section
variable {pre : Chain V} {s : Stage V} {post : Chain V}

/-- The run of a chain whose rejecting future has a continuation and no handler. -/
theorem Chain.run_drops (hs : s.slot ≠ .empty) (hx : Chain.caught (s :: post) = none)
    (args : List V) :
    Logs Trail.trace (fun l r => (∀ e ∈ l, Fits pre s e) →
        r = none ∧ ∀ e ∈ l, ∃ p ∈ pre ++ [s], ∃ a, e = .body p.this a)
      (Chain.run (pre ++ s :: post) args) := by
  apply Chain.run_logs
  · exact fun _ => ⟨rfl, fun e he => absurd he (by simp)⟩
  · intro l l' r h1 h2 hf
    obtain ⟨-, h3⟩ := h1 (fun e he => hf e (List.mem_append_left _ he))
    obtain ⟨h4, h5⟩ := h2 (fun e he => hf e (List.mem_append_right _ he))
    exact ⟨h4, fun e he => (List.mem_append.mp he).elim (h3 e) (h5 e)⟩
  · rintro p hp a -
    refine ⟨rfl, fun e he => ⟨p, List.mem_append_left _ hp, a, List.mem_singleton.mp he⟩⟩
  · intro p hp a hr l r hf
    have := (hf _ (List.mem_cons_self ..)).2 p hp rfl
    rw [hr] at this
    cases this
  · intro args t
    by_cases hf : Fits pre s (.body s.this args)
    · obtain ⟨t', h1, h2⟩ := Chain.run_dropped hs hx (hf.1 rfl).1 (hf.1 rfl).2 t
      rw [h1]
      refine ⟨_, h2, fun _ => ⟨rfl, fun e he => ⟨s, by simp, args, List.mem_singleton.mp he⟩⟩⟩
    · obtain ⟨l, hl⟩ := Chain.run_begins s post args t
      exact ⟨_, hl, fun h => absurd (h _ (List.mem_cons_self ..)) hf⟩

/-- The run of a chain whose rejecting future is the last one and has no handler. -/
theorem Chain.run_throws (hnd : ((pre ++ s :: post).map Stage.this).Nodup) (hs : s.slot = .empty)
    (args : List V) :
    Logs Trail.trace (fun l r => (∀ e ∈ l, Fits pre s e) → (∃ a, Event.body s.this a ∈ l) →
        r = some .badFunctionCall)
      (Chain.run (pre ++ s :: post) args) := by
  have hne : ∀ p ∈ pre, s.this ≠ p.this := by
    rw [List.map_append, List.map_cons, List.nodup_append] at hnd
    exact fun p hp e => hnd.2.2 p.this (List.mem_map_of_mem hp) s.this (List.mem_cons_self ..) e.symm
  apply Chain.run_logs
  · rintro - ⟨a, ha⟩
    exact absurd ha (by simp)
  · rintro l l' r h1 h2 hf ⟨a, ha⟩
    rcases List.mem_append.mp ha with ha | ha
    · cases h1 (fun e he => hf e (List.mem_append_left _ he)) ⟨a, ha⟩
    · exact h2 (fun e he => hf e (List.mem_append_right _ he)) ⟨a, ha⟩
  · rintro p hp a - ⟨a', ha⟩
    exact absurd (Event.body.inj (List.mem_singleton.mp ha)).1 (hne p hp)
  · intro p hp a hr l r hf
    have := (hf _ (List.mem_cons_self ..)).2 p hp rfl
    rw [hr] at this
    cases this
  · intro args t
    by_cases hf : Fits pre s (.body s.this args)
    · obtain ⟨t', h1, h2⟩ := @Chain.run_empty V _ s post hs args (hf.1 rfl).1 (hf.1 rfl).2 t
      rw [h1]
      exact ⟨_, h2, fun _ _ => rfl⟩
    · obtain ⟨l, hl⟩ := Chain.run_begins s post args t
      exact ⟨_, hl, fun h => absurd (h _ (List.mem_cons_self ..)) hf⟩

end

/-! ## built chains -/

/-- **An uncaught reject.**  A future of a built chain with no handler at or after it rejects, in
a run of the head or in a queued closure over its functions.  The reject is dropped, that is the
run returns without a handler and without a body after that of the future, exactly when the future
is not the last one of the chain. -/
theorem uncaught_dropped_iff {h : Heap V} {cs : List (List Ref)} (hb : Built Anywhere h cs)
    {hd : Ref} {fs : List Ref} (hc : hd :: fs ∈ cs) {pre post : Chain V} {s : Stage V}
    (hs : chain h fs = pre ++ s :: post) (hn : nearest (s :: post) = none) (t : Trail V) :
    (∀ args, RejectsAt pre s (seen (t.world h) (run hd args)).calls →
      (Dropped pre s (seen (t.world h) (run hd args)) ↔ post ≠ [])) ∧
    ∀ (acc : Bool) (code : List (Stmt V acc)), accepts code = [] → rejects code = true →
      ((seen (t.world h) (fire ⟨acc, s.this, code⟩)).result = .ok () ∧
        (seen (t.world h) (fire ⟨acc, s.this, code⟩)).calls = [] ↔ post ≠ []) := by
  obtain ⟨-, hsh, -⟩ := hb.suffix hc hs
  have hx := hsh.caught_none hn
  have hslot := hsh.slot_empty hn
  have hnd := hb.nodup_chain hc
  rw [hs] at hnd
  refine ⟨fun args hr => ?_, fun acc code ha hr => ?_⟩
  · obtain ⟨vs, t', -, hseen⟩ := seen_head hb hc args t
    rw [hseen, hs] at hr ⊢
    constructor
    · rintro hdrop rfl
      have h1 := Trail.seen_logs (Chain.run_throws hnd (hslot.mpr rfl) vs) t' hr.fits hr.reached
      have h2 := hdrop.returns
      rw [Trail.seen_result, h1] at h2
      cases h2
    · intro hpost
      obtain ⟨h1, h2⟩ := Trail.seen_logs (@Chain.run_drops V _ pre s post
        (fun e => hpost (hslot.mp e)) hx vs) t' hr.fits
      exact ⟨by rw [Trail.seen_result, h1], h2⟩
  · rw [seen_fire hb hc hs]
    constructor
    · rintro ⟨h1, -⟩ rfl
      obtain ⟨t', h2, -⟩ := Chain.exec_empty (Chain.run []) [] (hslot.mpr rfl) ha hr t
      rw [Trail.seen_result, h2] at h1
      cases h1
    · intro hpost
      obtain ⟨t', h1, h2⟩ := Chain.exec_dropped (Chain.run post) post
        (fun e => hpost (hslot.mp e)) hx ha t
      unfold Trail.seen
      rw [h1]
      exact ⟨rfl, by simp [h2]⟩

end

/-- a rejecting body after a bound head, and one more that does not run -/
def rejectHeap : Heap Nat := then_ (then_ (bound [] [2, 5]) 0 body2') 1 (.noFun .void fun _ => [])

theorem rejectHeap_built : Built Anywhere rejectHeap [[0, 1, 2]] := by
  have h1 := @Built.then_ Nat Anywhere _ [] [] [] 0 body2' (.bound [2, 5] .empty) trivial
  exact @Built.then_ Nat Anywhere _ [] [] [0] 1 (.noFun .void fun _ => []) h1 trivial

/-- In the middle of a chain the reject is dropped. -/
theorem uncaught_dropped_reject :
    Dropped [] ⟨1, body2', .next, none⟩
      (seen ((World.init rejectHeap).trail.world rejectHeap) (run 0 [])) := by
  have hs : chain rejectHeap [1, 2] = [] ++ ⟨1, body2', .next, none⟩
      :: [⟨2, .noFun .void fun _ => [], .empty, none⟩] := rfl
  have hcalls : (seen ((World.init rejectHeap).trail.world rejectHeap) (run 0 [])).calls
      = [.body 1 [2, 5]] := rfl
  refine ((uncaught_dropped_iff rejectHeap_built (List.mem_cons_self ..) hs rfl
    (World.init rejectHeap).trail).1 [] ?_).mpr (by simp)
  rw [hcalls]
  exact ⟨⟨_, List.mem_cons_self ..⟩, fun a _ => ⟨rfl, rfl⟩, fun p hp => absurd hp (by simp)⟩

/-- a rejecting body after a bound head -/
def lastHeap : Heap Nat := then_ (bound [] [2, 5]) 0 body2'

/-- At its end the run throws. -/
theorem last_reject_throws :
    Built BeforeExcept lastHeap [[0, 1]] ∧
    chain lastHeap [1] = [⟨1, body2', .empty, none⟩] ∧ nearest (chain lastHeap [1]) = none ∧
    RejectsAt [] ⟨1, body2', .empty, none⟩ (firstRun lastHeap 0 []).calls ∧
    firstRun lastHeap 0 [] = ⟨.error .badFunctionCall, [], [.body 1 [2, 5]]⟩ := by
  have hcalls : (firstRun lastHeap 0 []).calls = [.body 1 [2, 5]] := rfl
  refine ⟨?_, rfl, rfl, ?_, rfl⟩
  · exact @Built.then_ Nat BeforeExcept _ [] [] [] 0 body2' (.bound [2, 5] .empty)
      (by intro F hF; cases hF; rfl)
  · rw [hcalls]
    exact ⟨⟨_, List.mem_cons_self ..⟩, fun a _ => ⟨rfl, rfl⟩, fun p hp => absurd hp (by simp)⟩

end Future
end Pharoah
