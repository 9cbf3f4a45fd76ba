import Pharoah.Future.Build
import Mathlib.Algebra.GroupWithZero.Nat

/-!
# Futures: what one run of a chain does

The meaning of a chain whose bodies settle once and before they return, without any of the
objects: values go from body to body, and a reject goes to the nearest handler.

* `Body.settle?`        how a body settles on given arguments, if it settles exactly once;
* `Body.settle_cases`   the same, one case for each style and outcome;
* `calls c args`        the bodies that run, in chain order, each on the values of the one before;
* `rejected c args`     the part of the chain from the first rejecting future on;
* `nearest d`           the handler on the nearest future at or after the first of `d`;
* `expected c args`     all calls of user code in one run.

`chain_first_run`: **the first run of a built chain makes exactly the calls `expected` says**.
-/

namespace Pharoah
namespace Future

open Prog

/-- how a body settles -/
inductive Settle (V : Type) where
  | accept (vs : List V)
  | reject (es : List V)

section
variable {V : Type}

/-- how the body settles on `args`, if it does so once and before it returns -/
def Body.settle? (b : Body V) (args : List V) : Option (Settle V) :=
  match b with
  | .accRej code =>
    match code args with
    | [.accept _ vs] => some (.accept vs)
    | [.reject es] => some (.reject es)
    | _ => none
  | .rej _ code =>
    match (code args).1 with
    | [] => some (.accept (code args).2)
    | [.reject es] => some (.reject es)
    | _ => none
  | .noFun _ code => some (.accept (code args))

/-- How a body of each style settles once. -/
inductive Body.SettlesAs (args : List V) : Body V → Settle V → Prop where
  | accept (code : List V → List (Stmt V true)) (vs : List V) (h : code args = [.accept rfl vs]) :
      SettlesAs args (.accRej code) (.accept vs)
  | reject (code : List V → List (Stmt V true)) (es : List V) (h : code args = [.reject es]) :
      SettlesAs args (.accRej code) (.reject es)
  | ret (r : Ret) (code : List V → List (Stmt V false) × List V) (h : (code args).1 = []) :
      SettlesAs args (.rej r code) (.accept (code args).2)
  | rejectRet (r : Ret) (code : List V → List (Stmt V false) × List V) (es : List V)
      (h : (code args).1 = [.reject es]) : SettlesAs args (.rej r code) (.reject es)
  | noFun (r : Ret) (code : List V → List V) : SettlesAs args (.noFun r code) (.accept (code args))

theorem Body.settle_cases {b : Body V} {args : List V} {o : Settle V}
    (hb : b.settle? args = some o) : b.SettlesAs args o := by
  cases b with
  | accRej code =>
    simp only [Body.settle?] at hb
    split at hb
    · next h vs hcode =>
      cases hb
      exact .accept code vs hcode
    · next es hcode =>
      cases hb
      exact .reject code es hcode
    · cases hb
  | rej r code =>
    simp only [Body.settle?] at hb
    split at hb
    · next hcode =>
      cases hb
      exact .ret r code hcode
    · next es hcode =>
      cases hb
      exact .rejectRet r code es hcode
    · cases hb
  | noFun r code =>
    cases hb
    exact .noFun r code

def Body.SettlesOnce (b : Body V) : Prop := ∀ args, (b.settle? args).isSome

/-- the body is of a style that returns, and returns `void` -/
def Body.isVoid : Body V → Bool
  | .rej .void _ => true
  | .noFun .void _ => true
  | _ => false

/-! ## the calls of one run -/

def calls : Chain V → List V → List (Event V)
  | [], _ => []
  | s :: rest, args => .body s.this args :: match s.body.settle? args with
    | some (.accept vs) => calls rest vs
    | _ => []

def rejected : Chain V → List V → Option (Chain V)
  | [], _ => none
  | s :: rest, args =>
    match s.body.settle? args with
    | some (.accept vs) => rejected rest vs
    | some (.reject _) => some (s :: rest)
    | none => none

def nearest (c : Chain V) : Option Ref := c.findSome? Stage.nxtF

def expected (c : Chain V) (args : List V) : List (Event V) :=
  calls c args ++ (((rejected c args).bind nearest).map fun x => .handler x []).toList

/-- the values the head of a chain hands on: its own if it is bound, else those it is run on -/
def delivered (h : Heap V) (hd : Ref) (args : List V) : List V :=
  match h[hd]? with
  | some { kind := .bound, value := vs, .. } => vs
  | _ => args

/-- the future an event is about -/
def Event.ref : Event V → Ref
  | .body f _ => f
  | .handler x _ => x

/-- without a reject every body runs, once and in chain order -/
theorem calls_of_accepted {c : Chain V} {args : List V} (hr : rejected c args = none)
    (once : ∀ s ∈ c, s.body.SettlesOnce) : (calls c args).map Event.ref = c.map Stage.this := by
  induction c generalizing args with
  | nil => rfl
  | cons s rest ih =>
    have h1 := once s (List.mem_cons_self ..) args
    unfold rejected at hr
    unfold calls
    cases hs : s.body.settle? args with
    | none => rw [hs] at h1; cases h1
    | some r =>
      cases r with
      | accept vs =>
        rw [hs] at hr
        rw [List.map_cons, List.map_cons,
          ih hr (fun s' hs' => once s' (List.mem_cons_of_mem _ hs'))]
        rfl
      | reject es => rw [hs] at hr; cases hr

/-- with a reject the bodies run once and in chain order, up to the rejecting one -/
theorem calls_of_rejected {c d : Chain V} {args : List V} (hr : rejected c args = some d) :
    ∃ pre s post, c = pre ++ s :: post ∧ d = s :: post ∧
      (calls c args).map Event.ref = (pre ++ [s]).map Stage.this := by
  induction c generalizing args with
  | nil => cases hr
  | cons s rest ih =>
    unfold rejected at hr
    unfold calls
    cases hs : s.body.settle? args with
    | none => rw [hs] at hr; cases hr
    | some r =>
      cases r with
      | accept vs =>
        rw [hs] at hr
        obtain ⟨pre, s', post, hc, hd, hcalls⟩ := ih hr
        refine ⟨s :: pre, s', post, by rw [hc]; rfl, hd, ?_⟩
        rw [List.map_cons, hcalls]
        rfl
      | reject es =>
        rw [hs] at hr
        cases hr
        exact ⟨[], s, rest, rfl, rfl, rfl⟩

/-! ## the shape of a built chain -/

/-- Only the last future may lack a continuation, and a handler's future knows its handler. -/
def Shaped : Chain V → Prop
  | [] => True
  | s :: rest =>
    (match s.slot with
      | .empty => rest = [] ∧ s.nxtF = none
      | .next => rest ≠ []
      | .handler x => s.nxtF = some x) ∧ Shaped rest

/-- the handlers are attached after the continuations -/
def Attached (c : Chain V) : Prop := ∀ s ∈ c, s.slot = .next → s.nxtF = none

theorem Built.shaped {ok : Heap V → Ref → Prop} {h : Heap V} {cs : List (List Ref)}
    (hb : Built ok h cs) {hd : Ref} {fs : List Ref} (hc : hd :: fs ∈ cs) :
    Shaped (chain h fs) := by
  have hl := (hb.wf.linked _ hc).2
  have hk := hb.kinds hc
  clear hc
  induction fs with
  | nil => trivial
  | cons f fs ih =>
    obtain ⟨F, b, hF, hkF⟩ := hk f (List.mem_cons_self ..)
    have hk' : ∀ g ∈ fs, ∃ (F : Object V) (b : Body V), h[g]? = some F ∧ F.kind = .body b :=
      fun g hg => hk g (List.mem_cons_of_mem _ hg)
    obtain ⟨⟨F', hF', hcell⟩, hl'⟩ := hl
    rw [hF] at hF'; cases hF'
    rw [chain_cons hF hkF]
    refine ⟨?_, ih hl' hk'⟩
    rw [← chain_head hk'] at hcell
    rcases hcell.nxtForward with ⟨h1, h2, h3⟩ | ⟨n, h1, h2⟩ | ⟨x, h1, h2⟩
    · rw [h1]
      refine ⟨?_, h2⟩
      cases hch : chain h fs with
      | nil => rfl
      | cons s rest => rw [hch] at h3; cases h3
    · rw [h1]
      show chain h fs ≠ []
      intro e
      rw [e] at h2
      cases h2
    · rw [h1]
      exact h2

theorem Built.chain_attached {h : Heap V} {cs : List (List Ref)} (hb : Built BeforeExcept h cs)
    (fs : List Ref) : Attached (chain h fs) := by
  intro s hs hslot
  obtain ⟨f, -, hst⟩ := List.mem_filterMap.mp hs
  unfold stage? at hst
  split at hst
  · next b v n x a j g e hF =>
    cases hst
    cases x with
    | none => rfl
    | some x =>
      have h1 := hb.attached f _ x hF rfl
      simp only at h1
      subst h1
      cases hslot
  · cases hst

theorem caught_eq_nearest {c : Chain V} (hs : Shaped c) (ha : Attached c) :
    Chain.caught c = nearest c := by
  induction c with
  | nil => rfl
  | cons s rest ih =>
    obtain ⟨h1, h2⟩ := hs
    have ih' := ih h2 (fun s' hs' => ha s' (List.mem_cons_of_mem _ hs'))
    unfold Chain.caught nearest
    rw [List.findSome?_cons]
    cases hslot : s.slot with
    | empty =>
      rw [hslot] at h1
      obtain ⟨rfl, h1⟩ := h1
      rw [h1]
      rfl
    | next =>
      rw [ha s (List.mem_cons_self ..) hslot]
      exact ih'
    | handler x =>
      rw [hslot] at h1
      rw [show s.nxtF = some x from h1]

/-! ## one future -/

/-- the call of the handler that the rejects of the first future reach -/
def caughtCalls (c : Chain V) : List (Event V) :=
  ((Chain.caught c).map fun x => .handler x []).toList

/-- a reject of a future that has a continuation or a handler -/
theorem Chain.reject_eq {s : Stage V} (rest : Chain V) (hs : s.slot ≠ .empty) (b : Bool)
    (t : Trail V) : ∃ t', Chain.reject (s :: rest) b t = .ok () t' ∧
      t'.trace = t.trace ++ caughtCalls (s :: rest) ∧
      t'.errored = (if b then t.setErrored s.this else t).errored ∧
      t'.value = t.value ∧ t'.dyn_tq = t.dyn_tq := by
  have hfw : ∀ t₁ : Trail V, ∃ t', Chain.forward (s :: rest) t₁ = .ok () t' ∧
      t'.trace = t₁.trace ++ caughtCalls (s :: rest) ∧ t'.errored = t₁.errored ∧
      t'.value = t₁.value ∧ t'.dyn_tq = t₁.dyn_tq := by
    intro t₁
    unfold Chain.forward caughtCalls
    cases Chain.caught (s :: rest) with
    | none => exact ⟨t₁, rfl, by simp, rfl, rfl, rfl⟩
    | some x => exact ⟨_, rfl, rfl, rfl, rfl, rfl⟩
  obtain ⟨t', h1, h2, h3, h4, h5⟩ := hfw (if b then t.setErrored s.this else t)
  have ht : (if b then t.setErrored s.this else t).trace = t.trace ∧
      (if b then t.setErrored s.this else t).value = t.value ∧
      (if b then t.setErrored s.this else t).dyn_tq = t.dyn_tq := by
    cases b <;> exact ⟨rfl, rfl, rfl⟩
  refine ⟨t', ?_, by rw [h2, ht.1], h3, by rw [h4, ht.2.1], by rw [h5, ht.2.2]⟩
  rw [Chain.reject, bind_ok (modify_apply _ t)]
  cases h : s.slot with
  | empty => exact absurd h hs
  | next => exact h1
  | handler x => exact h1

/-- a body that accepts and does nothing else -/
theorem Chain.exec_accept (next : List V → A V Unit) (c : Chain V) (f : Ref) (vs : List V)
    (t : Trail V) : Chain.exec next c f ([.accept rfl vs] : List (Stmt V true)) t = next vs t :=
  bind_pure_unit _ t

theorem Chain.exec_reject (next : List V → A V Unit) (c : Chain V) (f : Ref) {acc : Bool}
    (es : List V) (t : Trail V) :
    Chain.exec next c f ([.reject es] : List (Stmt V acc)) t = Chain.reject c (!acc) t :=
  bind_pure_unit _ t

/-- the same but for the value of `f` -/
structure Alike (f : Ref) (t t' : Trail V) : Prop where
  errored : t'.errored = t.errored
  trace : t'.trace = t.trace
  dyn_tq : t'.dyn_tq = t.dyn_tq
  value : ∀ g, g ≠ f → t'.value g = t.value g

theorem Alike.refl (f : Ref) (t : Trail V) : Alike f t t := ⟨rfl, rfl, rfl, fun _ _ => rfl⟩

theorem Alike.setValue (f : Ref) (t : Trail V) (vs : List V) : Alike f t (t.setValue f vs) :=
  ⟨rfl, rfl, rfl, fun _ hg => Function.update_of_ne hg ..⟩

theorem Alike.trans {f : Ref} {t₁ t₂ t₃ : Trail V} (h : Alike f t₁ t₂) (h' : Alike f t₂ t₃) :
    Alike f t₁ t₃ :=
  ⟨h'.errored.trans h.errored, h'.trace.trans h.trace, h'.dyn_tq.trans h.dyn_tq,
    fun g hg => (h'.value g hg).trans (h.value g hg)⟩

variable [Movable V]

theorem Chain.callbody_apply (next : List V → A V Unit) (last : Bool) (f : Ref) {r : Ret}
    (hr : r ≠ .void) (vs : List V) (t : Trail V) :
    Chain.callbody next last f r vs t = Chain.handle_bodyret next last f r (t.setValue f vs) := by
  cases r with
  | void => exact absurd rfl hr
  | single => rfl
  | multi => rfl

/-- a value is handed on -/
theorem Chain.handle_bodyret_go (next : List V → A V Unit) {f : Ref} (r : Ret) {t : Trail V}
    (he : t.errored f = false) :
    Chain.handle_bodyret next false f r t = next (t.value f)
      (match r with
        | .multi => t.setValue f ((t.value f).map Movable.movedFrom)
        | _ => t) := by
  unfold Chain.handle_bodyret
  rw [get_bind]
  simp only [he]
  cases r <;> rfl

/-- no value is handed on -/
theorem Chain.handle_bodyret_stop (next : List V → A V Unit) {last : Bool} {f : Ref} (r : Ret)
    {t : Trail V} (hs : t.errored f = true ∨ last = true) :
    Chain.handle_bodyret next last f r t = .ok () t := by
  unfold Chain.handle_bodyret
  rw [get_bind]
  rcases hs with h | h
  · simp only [h]; rfl
  · subst h
    cases t.errored f <;> rfl

/-- a body that returned a value hands it on, unless it rejected or is the last one -/
theorem Chain.callbody_go (next : List V → A V Unit) {f : Ref} {r : Ret} (hr : r ≠ .void)
    (vs : List V) {t : Trail V} (he : t.errored f = false) :
    ∃ t', Chain.callbody next false f r vs t = next vs t' ∧ Alike f t t' := by
  have hv : (t.setValue f vs).value f = vs := Function.update_self ..
  rw [Chain.callbody_apply next false f hr,
    Chain.handle_bodyret_go next r (t := t.setValue f vs) he, hv]
  cases r with
  | void => exact absurd rfl hr
  | single => exact ⟨_, rfl, .setValue f t vs⟩
  | multi => exact ⟨_, rfl, (Alike.setValue f t vs).trans (.setValue f _ _)⟩

/-- nothing is handed on by a body that rejected, by the last one, or by one that returns `void` -/
theorem Chain.callbody_stop (next : List V → A V Unit) (last : Bool) (f : Ref) (r : Ret)
    (vs : List V) {t : Trail V} (hs : r = .void ∨ t.errored f = true ∨ last = true) :
    ∃ t', Chain.callbody next last f r vs t = .ok () t' ∧ Alike f t t' := by
  by_cases hr : r = .void
  · subst hr
    exact ⟨t, rfl, .refl f t⟩
  · rw [Chain.callbody_apply next last f hr,
      Chain.handle_bodyret_stop next r (t := t.setValue f vs) (hs.resolve_left hr)]
    exact ⟨_, rfl, .setValue f t vs⟩

/-- A body that accepts hands its values to the rest of the chain; the last one has none. -/
theorem Chain.runBody_accept (next : List V → A V Unit) (c : Chain V) {last : Bool} {f : Ref}
    {args vs : List V} {b : Body V} (hb : b.settle? args = some (.accept vs))
    (hv : last = false → b.isVoid = false) (hl : last = true → ∀ vs, next vs = pure ())
    {t : Trail V} (he : t.errored f = false) :
    ∃ t', Chain.runBody next c last f args b t = next vs t' ∧ Alike f t t' := by
  -- a value-returning style, once the body's own code is done
  have ret : ∀ r, (last = false → r ≠ .void) →
      ∃ t', Chain.callbody next last f r vs t = next vs t' ∧ Alike f t t' := by
    intro r hr
    cases last with
    | false => exact Chain.callbody_go next (hr rfl) vs he
    | true =>
      obtain ⟨t', h1, h2⟩ := Chain.callbody_stop next true f r vs (t := t)
        (.inr (.inr rfl))
      exact ⟨t', h1.trans (by rw [hl rfl vs]; rfl), h2⟩
  cases Body.settle_cases hb with
  | accept code _ hcode =>
    refine ⟨t, ?_, .refl f t⟩
    rw [Chain.runBody, hcode, Chain.exec_accept]
  | ret r code hcode =>
    rw [Chain.runBody, hcode]
    refine ret r (fun h e => ?_)
    subst e
    exact absurd (hv h) (by simp [Body.isVoid])
  | noFun r code =>
    refine ret r (fun h e => ?_)
    subst e
    exact absurd (hv h) (by simp [Body.isVoid])

/-- A body that rejects runs the handler it reaches, and hands nothing on. -/
theorem Chain.runBody_reject (next : List V → A V Unit) {s : Stage V} (rest : Chain V)
    (hs : s.slot ≠ .empty) (last : Bool) {args es : List V} {b : Body V}
    (hb : b.settle? args = some (.reject es)) (t : Trail V) :
    ∃ t', Chain.runBody next (s :: rest) last s.this args b t = .ok () t' ∧
      t'.trace = t.trace ++ caughtCalls (s :: rest) ∧ t'.dyn_tq = t.dyn_tq ∧
      (∀ g, g ≠ s.this → t'.errored g = t.errored g) ∧
      ∀ g, g ≠ s.this → t'.value g = t.value g := by
  cases Body.settle_cases hb with
  | reject code _ hcode =>
    obtain ⟨t', h1, h2, h3, h4, h5⟩ := Chain.reject_eq rest hs false t
    refine ⟨t', ?_, h2, h5, fun g _ => by rw [h3]; rfl, fun g _ => by rw [h4]⟩
    rw [Chain.runBody, hcode, Chain.exec_reject]
    exact h1
  | rejectRet r code _ hcode =>
    obtain ⟨t₁, h1, h2, h3, h4, h5⟩ := Chain.reject_eq rest hs true t
    have hrej : Chain.exec next (s :: rest) s.this ([.reject es] : List (Stmt V false)) t
        = .ok () t₁ := (Chain.exec_reject ..).trans h1
    have he : t₁.errored s.this = true := by
      rw [h3]
      exact Function.update_self ..
    obtain ⟨t', h6, h7⟩ := Chain.callbody_stop next last s.this r (code args).2 (t := t₁)
      (.inr (.inl he))
    refine ⟨t', ?_, by rw [h7.trace, h2], by rw [h7.dyn_tq, h5], fun g hg => ?_, fun g hg => ?_⟩
    · rw [Chain.runBody, hcode, bind_ok hrej]
      exact h6
    · rw [h7.errored, h3]
      exact Function.update_of_ne hg ..
    · rw [h7.value g hg, h4]

/-! ## the first run -/

/-- Run of a chain in which no future has `errored` yet. -/
theorem Chain.run_settled {c : Chain V} {args : List V} (hs : Shaped c) (ha : Attached c)
    (once : ∀ s ∈ c, s.body.SettlesOnce) (nonvoid : ∀ s ∈ c.dropLast, s.body.isVoid = false)
    (caught : ∀ d, rejected c args = some d → nearest d ≠ none) {t : Trail V}
    (he : ∀ s ∈ c, t.errored s.this = false) :
    ∃ t', Chain.run c args t = .ok () t' ∧ t'.trace = t.trace ++ expected c args ∧
      t'.dyn_tq = t.dyn_tq := by
  induction c generalizing args t with
  | nil => exact ⟨t, rfl, by simp [expected, calls, rejected], rfl⟩
  | cons s rest ih =>
    have hes : t.errored s.this = false := he s (List.mem_cons_self ..)
    have hlast : rest.isEmpty = true → ∀ vs, Chain.run rest vs = pure () := by
      intro hl vs
      rw [List.isEmpty_iff.mp hl]
      rfl
    have hnv : rest.isEmpty = false → s.body.isVoid = false := by
      intro hne
      cases rest with
      | nil => cases hne
      | cons a rest => exact nonvoid s (List.mem_cons_self ..)
    have hrest : ∀ s' ∈ rest.dropLast, s'.body.isVoid = false := by
      intro s' hs'
      cases rest with
      | nil => exact absurd hs' (by simp)
      | cons a rest => exact nonvoid s' (List.mem_cons_of_mem _ hs')
    unfold Chain.run
    rw [bind_ok (modify_apply _ t)]
    obtain ⟨r, hr⟩ := Option.isSome_iff_exists.mp (once s (List.mem_cons_self ..) args)
    cases r with
    | accept vs =>
      have e1 : rejected (s :: rest) args = rejected rest vs := by rw [rejected, hr]
      have e2 : expected (s :: rest) args = .body s.this args :: expected rest vs := by
        rw [expected, e1, calls, hr]
        rfl
      obtain ⟨t1, h1, h2, h3, h4, -⟩ := Chain.runBody_accept (Chain.run rest) (s :: rest) hr
        hnv hlast (t := t.emit (.body s.this args)) hes
      obtain ⟨t2, h5, h6, h7⟩ := ih hs.2 (fun s' hs' => ha s' (List.mem_cons_of_mem _ hs'))
        (fun s' hs' => once s' (List.mem_cons_of_mem _ hs')) hrest
        (fun d (hd : rejected rest vs = some d) => caught d (e1.trans hd)) (t := t1)
        (fun s' hs' => by rw [h2]; exact he s' (List.mem_cons_of_mem _ hs'))
      refine ⟨t2, h1.trans h5, ?_, ?_⟩
      · rw [h6, h3, e2]
        simp [Trail.emit]
      · rw [h7, h4]
        rfl
    | reject es =>
      have e1 : rejected (s :: rest) args = some (s :: rest) := by rw [rejected, hr]
      obtain ⟨x, hx⟩ := Option.ne_none_iff_exists'.mp (caught _ e1)
      have hcx : Chain.caught (s :: rest) = some x := (caught_eq_nearest hs ha).trans hx
      have hslot : s.slot ≠ .empty := by
        intro e
        simp [Chain.caught, e] at hcx
      obtain ⟨t1, h1, h3, h4, -⟩ := Chain.runBody_reject (Chain.run rest) rest hslot rest.isEmpty
        hr (t.emit (.body s.this args))
      refine ⟨t1, h1, ?_, ?_⟩
      · rw [h3, expected, e1, calls, hr, Option.bind_some, hx, caughtCalls, hcx]
        simp [Trail.emit]
      · rw [h4]
        rfl

/-- A head that still has its values hands them on, and changes nothing but its own value. -/
theorem Chain.start_run {h : Heap V} {hd : Ref} {F : Object V} (hF : h[hd]? = some F)
    (hk : F.kind = .bound ∨ F.kind = .unbound) (c : Chain V) (args : List V) {t : Trail V}
    (hv : F.kind = .bound → t.value hd = F.value) :
    ∃ t', Chain.start F.kind hd c args t = Chain.run c (delivered h hd args) t' ∧
      Alike hd t t' := by
  obtain ⟨k, v, n1, n2, n3, n4, n5, e⟩ := F
  rcases hk with hk | hk
  · obtain rfl := hk
    have hd' : delivered h hd args = t.value hd := by simp [delivered, hF, hv rfl]
    rw [hd']
    cases c with
    | nil => exact ⟨t, rfl, .refl hd t⟩
    | cons s rest => exact ⟨_, rfl, .setValue hd t _⟩
  · obtain rfl := hk
    have hd' : delivered h hd args = args := by simp [delivered, hF]
    rw [hd']
    exact ⟨t, rfl, .refl hd t⟩

/-- the world in which nothing has run yet -/
def World.init (h : Heap V) : World V := { heap := h }

omit [Movable V] in
theorem Built.init_errored {ok : Heap V → Ref → Prop} {h : Heap V} {cs : List (List Ref)}
    (hb : Built ok h cs) (r : Ref) : (World.init h).trail.errored r = false := by
  show (h[r]?).elim false Object.errored = false
  cases hr : h[r]? with
  | none => rfl
  | some G => exact hb.wf.errored r G hr

/-- **Chain semantics.**  The first run of the head of a chain whose bodies settle once, whose
futures other than the last return a value if they return, and on which a rejecting future has a
handler at or after it, returns, having made exactly the expected calls: the bodies in chain
order on the values handed on, up to the first that rejects, and then the nearest handler. -/
theorem chain_first_run {h : Heap V} {cs : List (List Ref)} (hb : Built BeforeExcept h cs)
    {hd : Ref} {fs : List Ref} (hc : hd :: fs ∈ cs) (args : List V)
    (once : ∀ s ∈ chain h fs, s.body.SettlesOnce)
    (nonvoid : ∀ s ∈ (chain h fs).dropLast, s.body.isVoid = false)
    (caught : ∀ d, rejected (chain h fs) (delivered h hd args) = some d → nearest d ≠ none) :
    ∃ w, run hd args (World.init h) = .ok () w ∧
      w.trace = expected (chain h fs) (delivered h hd args) := by
  obtain ⟨f, F, hf, hF, hk⟩ := hb.wf.head _ hc
  obtain rfl : hd = f := by simpa using hf
  obtain ⟨t1, h1, h2, h3, h4, -⟩ := Chain.start_run hF hk (chain h fs) args
    (t := (World.init h).trail) (fun _ => by simp [World.trail, World.init, hF])
  have herr : ∀ s ∈ chain h fs, t1.errored s.this = false := by
    intro s _
    rw [h2, hb.init_errored s.this]
  obtain ⟨t2, h5, h6, -⟩ := Chain.run_settled (hb.shaped hc) (hb.chain_attached fs) once nonvoid
    caught herr
  have hsim := run_chain hb hc hF args (World.init h) (World.init h).trail
    (World.trail_world (World.init h)).symm
  rw [h1, h5] at hsim
  obtain ⟨w, hw, rfl⟩ := hsim.ok
  refine ⟨_, hw, ?_⟩
  rw [Trail.world_trace, h6, h3]
  rfl

end

/-! ## the chain of `pctest/main.cc` -/

/-- moving an `int` copies it -/
instance : Movable Nat := ⟨id⟩

/-- `f0 = unbound<int, int>()`, `f1 = bound(2, 5)`, `f1->then(body2)`, the two bodies that add one,
the one that prints, and the handler on `f4` -/
def mainHeap (body2 : Body Nat) : Heap Nat :=
  let f1 := bound (unbound []) [2, 5]
  let f2 := then_ f1 1 body2
  let f3 := then_ f2 2 (.rej .single fun args => ([], [args.sum + 1]))
  let f4 := then_ f3 3 (.noFun .single fun args => [args.sum + 1])
  let f5 := then_ f4 4 (.noFun .void fun _ => [])
  except f5 4

/-- `A(a+b)` -/
def body2 : Body Nat := .accRej fun args => [.accept rfl [args.sum]]

/-- the same body, calling `R("...")` -/
def body2' : Body Nat := .accRej fun _ => [.reject [0]]

theorem mainHeap_built (b : Body Nat) : Built BeforeExcept (mainHeap b) [[1, 2, 3, 4, 5], [0]] := by
  have h1 : Built BeforeExcept (bound (unbound ([] : Heap Nat)) [2, 5]) [[1], [0]] :=
    .bound [2, 5] (.unbound .empty)
  have h2 := @Built.then_ Nat BeforeExcept _ [] [[0]] [] 1 b h1 (by intro F hF; cases hF; rfl)
  have h3 := @Built.then_ Nat BeforeExcept _ [] [[0]] [1] 2
    (.rej .single fun args => ([], [args.sum + 1])) h2 (by intro F hF; cases hF; rfl)
  have h4 := @Built.then_ Nat BeforeExcept _ [] [[0]] [1, 2] 3
    (.noFun .single fun args => [args.sum + 1]) h3 (by intro F hF; cases hF; rfl)
  have h5 := @Built.then_ Nat BeforeExcept _ [] [[0]] [1, 2, 3] 4 (.noFun .void fun _ => [])
    h4 (by intro F hF; cases hF; rfl)
  exact h5.except (by simp)

theorem mainHeap_chain (b : Body Nat) : chain (mainHeap b) [2, 3, 4, 5]
    = [⟨2, b, .next, none⟩, ⟨3, .rej .single fun args => ([], [args.sum + 1]), .next, none⟩,
       ⟨4, .noFun .single fun args => [args.sum + 1], .handler 6, some 6⟩,
       ⟨5, .noFun .void fun _ => [], .empty, none⟩] := rfl

theorem mainHeap_once {b : Body Nat} (hb : b.SettlesOnce) :
    ∀ s ∈ chain (mainHeap b) [2, 3, 4, 5], s.body.SettlesOnce := by
  rw [mainHeap_chain]
  intro s hs
  simp only [List.mem_cons, List.not_mem_nil, or_false] at hs
  rcases hs with rfl | rfl | rfl | rfl
  · exact hb
  all_goals exact fun args => rfl

theorem mainHeap_nonvoid {b : Body Nat} (hb : b.isVoid = false) :
    ∀ s ∈ (chain (mainHeap b) [2, 3, 4, 5]).dropLast, s.body.isVoid = false := by
  rw [mainHeap_chain]
  intro s hs
  simp only [List.dropLast_cons_cons, List.dropLast_singleton, List.mem_cons, List.not_mem_nil,
    or_false] at hs
  rcases hs with rfl | rfl | rfl
  · exact hb
  all_goals rfl

/-- The chain of `main` runs all its bodies; with a reject in the first one, the handler. -/
theorem chain_first_run_main :
    (∃ w, run 1 [] (World.init (mainHeap body2)) = .ok () w ∧
      w.trace = [.body 2 [2, 5], .body 3 [7], .body 4 [8], .body 5 [9]]) ∧
    (∃ w, run 1 [] (World.init (mainHeap body2')) = .ok () w ∧
      w.trace = [.body 2 [2, 5], .handler 6 []]) := by
  constructor
  · refine chain_first_run (mainHeap_built body2) (List.mem_cons_self ..) []
      (mainHeap_once fun args => rfl) (mainHeap_nonvoid rfl) ?_
    intro d hd
    cases hd
  · refine chain_first_run (mainHeap_built body2') (List.mem_cons_self ..) []
      (mainHeap_once fun args => rfl) (mainHeap_nonvoid rfl) ?_
    intro d hd
    cases hd
    decide

end Future
end Pharoah
