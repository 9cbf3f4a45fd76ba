import Pharoah.Future.Order

/-!
# Futures: two runs of a chain side by side

What one stage adds to the rules of `Prog`, so that a property of a whole run only has to be
stated once per stage:

* `Chain.stage_moves`   what a run does to the state it starts in;
* `Emits P t t'`        from `t` to `t'` only calls with `P` were made;
* `Chain.stage_simUnless`   two runs of one stage, with different futures after it, up to a bad
                            state in which only the first of them can end;
* `seen w m`            what a program shows: how it ended, what it queued and what it called.
-/

namespace Pharoah
namespace Future

open Prog

section
variable {V : Type}

/-! ## the state after a run -/

section
variable {T : Trail V → Trail V → Prop} (hr : ∀ t, T t t)
  (ht : ∀ t₁ t₂ t₃, T t₁ t₂ → T t₂ t₃ → T t₁ t₃)
include hr ht

theorem Chain.reject_moves {s : Stage V} (rest : Chain V) (b : Bool)
    (hset : b = true → ∀ t, T t (t.setErrored s.this))
    (hhandler : ∀ t x, T t (t.emit (.handler x []))) : Moves T (Chain.reject (s :: rest) b) := by
  have hfw : Moves T (Chain.forward (s :: rest)) := by
    unfold Chain.forward
    cases Chain.caught (s :: rest) with
    | none => exact Moves.pure hr ()
    | some x => exact Moves.modify (fun t => hhandler t x)
  refine Moves.bind ht (Moves.modify fun t => ?_) (fun _ => ?_)
  · cases b with
    | true => exact hset rfl t
    | false => exact hr t
  · cases s.slot with
    | empty => exact Moves.throw hr _
    | next => exact hfw
    | handler x => exact hfw

theorem Chain.exec_moves {next : List V → A V Unit} {s : Stage V} (rest : Chain V) (f : Ref)
    {acc : Bool} (hset : acc = false → ∀ t, T t (t.setErrored s.this))
    (hhandler : ∀ t x, T t (t.emit (.handler x []))) (hadd : ∀ t k, T t (t.add k))
    (code : List (Stmt V acc)) (hnext : ∀ h vs, Stmt.accept h vs ∈ code → Moves T (next vs)) :
    Moves T (Chain.exec next (s :: rest) f code) := by
  induction code with
  | nil => exact Moves.pure hr ()
  | cons st code ih =>
    have ih' := ih (fun h vs hm => hnext h vs (List.mem_cons_of_mem _ hm))
    cases st with
    | accept h vs => exact Moves.bind ht (hnext h vs (List.mem_cons_self ..)) (fun _ => ih')
    | reject es =>
      refine Moves.bind ht (Chain.reject_moves hr ht rest _ (fun h => ?_) hhandler) (fun _ => ih')
      exact hset (by simpa using h)
    | add task => exact Moves.bind ht (Moves.modify fun t => hadd t _) (fun _ => ih')

variable [Movable V]

theorem Chain.callbody_moves {next : List V → A V Unit} (last : Bool) (f : Ref) (r : Ret)
    (vs : List V) (hval : ∀ t vs, T t (t.setValue f vs))
    (hnext : r ≠ .void → ∀ vs, Moves T (next vs)) :
    Moves T (Chain.callbody next last f r vs) := by
  have hret : ∀ r, (∀ vs, Moves T (next vs)) → Moves T (Chain.handle_bodyret next last f r) := by
    intro r hnext t
    unfold Chain.handle_bodyret
    rw [get_bind]
    cases t.errored f with
    | true => exact Moves.pure hr () t
    | false =>
      cases last with
      | true => exact Moves.pure hr () t
      | false =>
        cases r with
        | multi => exact Moves.bind ht (Moves.modify fun t => hval t _) (fun _ => hnext _) t
        | single => exact hnext _ t
        | void => exact hnext _ t
  cases r with
  | void => exact Moves.pure hr ()
  | single =>
    exact Moves.bind ht (Moves.modify fun t => hval t _) (fun _ => hret _ (hnext (by simp)))
  | multi =>
    exact Moves.bind ht (Moves.modify fun t => hval t _) (fun _ => hret _ (hnext (by simp)))

theorem Chain.runBody_moves {next : List V → A V Unit} {s : Stage V} (rest : Chain V) (last : Bool)
    (args : List V) (b : Body V) (hset : ∀ t, T t (t.setErrored s.this))
    (hval : ∀ t vs, T t (t.setValue s.this vs)) (hadd : ∀ t k, T t (t.add k))
    (hhandler : ∀ t x, T t (t.emit (.handler x [])))
    (hnext : b.isVoid = false → ∀ vs, Moves T (next vs)) :
    Moves T (Chain.runBody next (s :: rest) last s.this args b) := by
  have hnone : ∀ {code : List (Stmt V false)} h vs, Stmt.accept h vs ∈ code →
      Moves T (next vs) := fun h _ _ => absurd h (by simp)
  cases b with
  | accRej code =>
    exact Chain.exec_moves hr ht rest s.this (fun _ => hset) hhandler hadd _
      (fun _ vs _ => hnext rfl vs)
  | rej r code =>
    refine Moves.bind ht (Chain.exec_moves hr ht rest s.this (fun _ => hset) hhandler hadd _ hnone)
      (fun _ => Chain.callbody_moves hr ht last s.this r _ hval (fun h => hnext ?_))
    cases r with
    | void => exact absurd rfl h
    | single => rfl
    | multi => rfl
  | noFun r code =>
    refine Chain.callbody_moves hr ht last s.this r _ hval (fun h => hnext ?_)
    cases r with
    | void => exact absurd rfl h
    | single => rfl
    | multi => rfl

/-- `T` holds of a run if it holds of the steps of its first stage and of the runs of the rest -/
theorem Chain.stage_moves {s : Stage V} {rest : Chain V} (args : List V)
    (hset : ∀ t, T t (t.setErrored s.this)) (hval : ∀ t vs, T t (t.setValue s.this vs))
    (hadd : ∀ t k, T t (t.add k)) (hhandler : ∀ t x, T t (t.emit (.handler x [])))
    (hbody : ∀ t, T t (t.emit (.body s.this args)))
    (hnext : s.body.isVoid = false → ∀ vs, Moves T (Chain.run rest vs)) :
    Moves T (Chain.run (s :: rest) args) :=
  Moves.bind ht (Moves.modify hbody) (fun _ =>
    Chain.runBody_moves hr ht rest rest.isEmpty args s.body hset hval hadd hhandler hnext)

end

/-! ## the calls a run makes -/

def Emits (P : Event V → Prop) (t t' : Trail V) : Prop :=
  ∃ l, t'.trace = t.trace ++ l ∧ ∀ e ∈ l, P e

/-- calls are only added -/
abbrev Grows : Trail V → Trail V → Prop := Emits fun _ => True

variable {P : Event V → Prop}

theorem Emits.of_eq {t t' : Trail V} (h : t'.trace = t.trace) : Emits P t t' :=
  ⟨[], by simp [h], by simp⟩

theorem Emits.emit {e : Event V} (t : Trail V) (he : P e) : Emits P t (t.emit e) :=
  ⟨[e], rfl, by simpa using he⟩

theorem Emits.trans {t₁ t₂ t₃ : Trail V} (h : Emits P t₁ t₂) (h' : Emits P t₂ t₃) :
    Emits P t₁ t₃ := by
  obtain ⟨l, hl, hP⟩ := h
  obtain ⟨l', hl', hP'⟩ := h'
  refine ⟨l ++ l', by rw [hl', hl, List.append_assoc], fun e he => ?_⟩
  rcases List.mem_append.mp he with he | he
  · exact hP e he
  · exact hP' e he

theorem Grows.mem {t t' : Trail V} (h : Grows t t') {e : Event V} (he : e ∈ t.trace) :
    e ∈ t'.trace := by
  obtain ⟨l, hl, -⟩ := h
  rw [hl]
  exact List.mem_append_left _ he

/-- the inputs on which the body of `f` was called -/
def entered (f : Ref) (calls : List (Event V)) : List (List V) :=
  calls.filterMap fun
    | .body g args => if g = f then some args else none
    | .handler _ _ => none

@[simp] theorem entered_append (f : Ref) (l l' : List (Event V)) :
    entered f (l ++ l') = entered f l ++ entered f l' := List.filterMap_append

@[simp] theorem entered_self (f : Ref) (args : List V) (l : List (Event V)) :
    entered f (.body f args :: l) = args :: entered f l := by simp [entered]

@[simp] theorem entered_handler (f x : Ref) (args : List V) (l : List (Event V)) :
    entered f (.handler x args :: l) = entered f l := by simp [entered]

theorem entered_other {f g : Ref} (hne : g ≠ f) (args : List V) (l : List (Event V)) :
    entered f (.body g args :: l) = entered f l := by simp [entered, hne]

theorem mem_entered {f : Ref} {args : List V} {l : List (Event V)} :
    args ∈ entered f l ↔ Event.body f args ∈ l := by
  induction l with
  | nil => simp [entered]
  | cons e l ih =>
    cases e with
    | body u a =>
      by_cases hu : u = f
      · subst hu; simp [ih]
      · rw [entered_other hu, ih]; simp [Ne.symm hu]
    | handler x a => simp [ih]

theorem split_append {α : Type} {l l' l₁ l₂ : List α} {x : α} (h : l ++ l' = l₁ ++ x :: l₂) :
    (∃ m, l = l₁ ++ x :: m ∧ l₂ = m ++ l') ∨ ∃ m, l' = m ++ x :: l₂ := by
  rcases List.append_eq_append_iff.mp h with ⟨m, -, h2⟩ | ⟨m, h1, h2⟩
  · exact .inr ⟨m, h2⟩
  · cases m with
    | nil => exact .inr ⟨[], h2.symm⟩
    | cons y m =>
      obtain ⟨rfl, rfl⟩ := List.cons_eq_cons.mp h2
      exact .inl ⟨m, h1, rfl⟩

theorem Chain.exec_emits {next : List V → A V Unit} {s : Stage V} (rest : Chain V) (f : Ref)
    {acc : Bool} (hx : ∀ x, P (.handler x [])) (code : List (Stmt V acc))
    (hnext : ∀ h vs, Stmt.accept h vs ∈ code → Moves (Emits P) (next vs)) :
    Moves (Emits P) (Chain.exec next (s :: rest) f code) :=
  Chain.exec_moves (fun _ => .of_eq rfl) (fun _ _ _ => .trans) rest f
    (fun _ _ => .of_eq rfl) (fun t _ => .emit t (hx _)) (fun _ _ => .of_eq rfl) code hnext

variable [Movable V]

theorem Chain.run_emits {c : Chain V} (hx : ∀ x, P (.handler x []))
    (hc : ∀ s ∈ c, ∀ args, P (.body s.this args)) (args : List V) :
    Moves (Emits P) (Chain.run c args) := by
  induction c generalizing args with
  | nil => exact Moves.pure (fun _ => .of_eq rfl) ()
  | cons s rest ih =>
    refine Chain.stage_moves (fun _ => .of_eq rfl) (fun _ _ _ => .trans) args (fun _ => .of_eq rfl)
      (fun _ _ => .of_eq rfl) (fun _ _ => .of_eq rfl) (fun t _ => .emit t (hx _))
      (fun t => .emit t (hc s (List.mem_cons_self ..) args)) (fun _ => ih ?_)
    exact fun s' hs' => hc s' (List.mem_cons_of_mem _ hs')

theorem Chain.run_grows (c : Chain V) (args : List V) : Moves Grows (Chain.run c args) :=
  Chain.run_emits (fun _ => trivial) (fun _ _ _ => trivial) args

/-- the body of the first future is called first -/
theorem Chain.run_head (s : Stage V) (rest : Chain V) (args : List V) (t : Trail V) :
    Grows (t.emit (.body s.this args)) (final (Chain.run (s :: rest) args t)) := by
  unfold Chain.run
  rw [bind_ok (modify_apply _ t)]
  exact Chain.runBody_moves (fun _ => .of_eq rfl) (fun _ _ _ => .trans) rest rest.isEmpty args
    s.body (fun _ => .of_eq rfl) (fun _ _ => .of_eq rfl) (fun _ _ => .of_eq rfl)
    (fun t _ => .emit t trivial) (fun _ vs => Chain.run_grows rest vs) _

/-- after the call of its body a stage does not call it again -/
theorem Chain.run_entry {s : Stage V} {post : Chain V} (hf : s.this ∉ post.map Stage.this)
    (args : List V) (t : Trail V) :
    Emits (fun e => ∀ a, e ≠ .body s.this a) (t.emit (.body s.this args))
      (final (Chain.run (s :: post) args t)) := by
  unfold Chain.run
  rw [bind_ok (modify_apply _ t)]
  refine Chain.runBody_moves (fun _ => .of_eq rfl) (fun _ _ _ => .trans) post post.isEmpty args
    s.body (fun _ => .of_eq rfl) (fun _ _ => .of_eq rfl) (fun _ _ => .of_eq rfl)
    (fun t _ => .emit t (by simp)) (fun _ vs => ?_) _
  refine Chain.run_emits (by simp) (fun u hu args' a he => ?_) vs
  obtain ⟨h1, -⟩ := Event.body.inj he
  exact hf (h1 ▸ List.mem_map_of_mem hu)

/-! ## two runs -/

section
variable {B : Trail V → Prop} (hB : ∀ t t', Grows t t' → B t → B t')
  {R : Trail V → Trail V → Prop}

omit [Movable V] in
/-- the reject functions of two futures with the same slot and the same handler after it -/
theorem Chain.reject_sim {s s' : Stage V} {rest rest' : Chain V} (hthis : s'.this = s.this)
    (hslot : s'.slot = s.slot) (hcaught : Chain.caught (s' :: rest') = Chain.caught (s :: rest))
    {b : Bool} (hset : b = true → ∀ t t', R t t' → R (t.setErrored s.this) (t'.setErrored s.this))
    (hhandler : ∀ t t' x, R t t' → R (t.emit (.handler x [])) (t'.emit (.handler x []))) :
    Sim R (Chain.reject (s :: rest) b) (Chain.reject (s' :: rest') b) := by
  have hfw : Sim R (Chain.forward (s :: rest)) (Chain.forward (s' :: rest')) := by
    unfold Chain.forward
    rw [hcaught]
    cases Chain.caught (s :: rest) with
    | none => exact Sim.pure ()
    | some x => exact Sim.modify (fun t t' h => hhandler t t' x h)
  simp only [Chain.reject, hthis, hslot]
  refine Sim.bind (Sim.modify fun t t' h => ?_) (fun _ => ?_)
  · cases b with
    | true => exact hset rfl t t' h
    | false => exact h
  · cases s.slot with
    | empty => exact Sim.throw _
    | next => exact hfw
    | handler x => exact hfw

include hB

omit [Movable V] in
theorem Chain.exec_simUnless {next next' : List V → A V Unit} {s s' : Stage V}
    (rest rest' : Chain V) (f : Ref) (hnext : ∀ vs, SimUnless B R (next vs) (next' vs))
    (hgrows : ∀ vs, Moves Grows (next vs))
    (hadd : ∀ t t' k, R t t' → R (t.add k) (t'.add k)) {acc : Bool}
    (hrej : SimUnless B R (Chain.reject (s :: rest) (!acc)) (Chain.reject (s' :: rest') (!acc)))
    (code : List (Stmt V acc)) :
    SimUnless B R (Chain.exec next (s :: rest) f code) (Chain.exec next' (s' :: rest') f code) := by
  induction code with
  | nil => exact (Sim.pure ()).unless
  | cons st code ih =>
    have hmore : Moves Grows (Chain.exec next (s :: rest) f code) :=
      Chain.exec_emits rest f (fun _ => trivial) code (fun _ vs _ => hgrows vs)
    cases st with
    | accept h vs => exact SimUnless.bind hB (hnext vs) (fun _ => ih) (fun _ => hmore)
    | reject es => exact SimUnless.bind hB hrej (fun _ => ih) (fun _ => hmore)
    | add task =>
      exact SimUnless.bind hB (Sim.modify fun t t' h => hadd t t' _ h).unless (fun _ => ih)
        (fun _ => hmore)

variable (hR : ∀ f t t₁ t' t₁', R t t' → Alike f t t₁ → Alike f t' t₁' → R t₁ t₁')
include hR

omit hB in
/-- The second run may have more futures that have `errored`, if the first one turns bad as soon
as it hands on a value from one of them. -/
theorem Chain.callbody_simUnless {next next' : List V → A V Unit} (last : Bool) (f : Ref)
    (hnext : ∀ vs, SimUnless B R (next vs) (next' vs))
    (herr : ∀ t t', R t t' → t.errored f = true → t'.errored f = true)
    (r : Ret) (hbad : last = false → r ≠ .void → ∀ t t', R t t' → t.errored f = false →
      t'.errored f = true → ∀ vs, B (final (next vs t))) (vs : List V) :
    SimUnless B R (Chain.callbody next last f r vs) (Chain.callbody next' last f r vs) := by
  intro t t' h hn
  have hstop : r = .void ∨ (t.errored f = true ∧ t'.errored f = true) ∨ last = true →
      Rel R (Chain.callbody next last f r vs t) (Chain.callbody next' last f r vs t') := by
    intro hs
    obtain ⟨t₁, e, hA⟩ := Chain.callbody_stop next last f r vs (t := t) (by tauto)
    obtain ⟨t₁', e', hA'⟩ := Chain.callbody_stop next' last f r vs (t := t') (by tauto)
    rw [e, e']
    exact ⟨rfl, hR f t t₁ t' t₁' h hA hA'⟩
  by_cases hv : r = .void
  · exact hstop (.inl hv)
  cases last with
  | true => exact hstop (.inr (.inr rfl))
  | false =>
    cases ht : t.errored f with
    | true => exact hstop (.inr (.inl ⟨ht, herr t t' h ht⟩))
    | false =>
      obtain ⟨t₁, e, hA⟩ := Chain.callbody_go next hv vs ht
      rw [e] at hn ⊢
      cases ht' : t'.errored f with
      | true =>
        have hb := hbad rfl hv t₁ t' (hR f t t₁ t' t' h hA (.refl f t'))
          (by rw [hA.errored]; exact ht) ht' vs
        exact absurd hb hn
      | false =>
        obtain ⟨t₁', e', hA'⟩ := Chain.callbody_go next' hv vs ht'
        rw [e']
        exact hnext vs t₁ t₁' (hR f t t₁ t' t₁' h hA hA') hn

/-- two runs of a stage, which may be linked in different ways -/
theorem Chain.stage_simUnless {s s' : Stage V} {rest rest' : Chain V} (hthis : s'.this = s.this)
    (hsame : s'.body = s.body) (hlast : rest'.isEmpty = rest.isEmpty)
    (hnext : ∀ vs, SimUnless B R (Chain.run rest vs) (Chain.run rest' vs))
    (hrej : ∀ b, (b = true → s.body.hasRej = true) →
      SimUnless B R (Chain.reject (s :: rest) b) (Chain.reject (s' :: rest') b))
    (hadd : ∀ t t' k, R t t' → R (t.add k) (t'.add k))
    (herr : ∀ t t', R t t' → t.errored s.this = true → t'.errored s.this = true)
    (hbad : rest.isEmpty = false → s.body.isVoid = false → ∀ t t', R t t' →
      t.errored s.this = false → t'.errored s.this = true → ∀ vs, B (final (Chain.run rest vs t)))
    (args : List V)
    (hbody : ∀ t t', R t t' → R (t.emit (.body s.this args)) (t'.emit (.body s.this args))) :
    SimUnless B R (Chain.run (s :: rest) args) (Chain.run (s' :: rest') args) := by
  have hgrows : ∀ b, Moves Grows
      (Chain.runBody (Chain.run rest) (s :: rest) rest.isEmpty s.this args b) := fun b =>
    Chain.runBody_moves (fun _ => .of_eq rfl) (fun _ _ _ => .trans) rest rest.isEmpty args
      b (fun _ => .of_eq rfl) (fun _ _ => .of_eq rfl) (fun _ _ => .of_eq rfl)
      (fun t _ => .emit t trivial) (fun _ vs => Chain.run_grows rest vs)
  have hret : ∀ r vs, (r ≠ .void → s.body.isVoid = false) →
      SimUnless B R (Chain.callbody (Chain.run rest) rest.isEmpty s.this r vs)
        (Chain.callbody (Chain.run rest') rest.isEmpty s.this r vs) := fun r vs hr =>
    Chain.callbody_simUnless hR rest.isEmpty s.this hnext herr r
      (fun hl hv => hbad hl (hr hv)) vs
  unfold Chain.run
  rw [hlast, hthis, hsame]
  refine SimUnless.bind hB (Sim.modify hbody).unless (fun _ => ?_) (fun _ => hgrows s.body)
  cases hb : s.body with
  | accRej code =>
    exact Chain.exec_simUnless hB rest rest' s.this hnext (Chain.run_grows rest) hadd
      (hrej false (by simp)) _
  | rej r code =>
    refine SimUnless.bind hB (Chain.exec_simUnless hB rest rest' s.this hnext
      (Chain.run_grows rest) hadd (hrej true (fun _ => by rw [hb]; rfl)) _)
      (fun _ => hret r _ (fun hr => ?_)) (fun _ => ?_)
    · rw [hb]
      cases r <;> first | rfl | exact absurd rfl hr
    · exact Chain.callbody_moves (fun _ => .of_eq rfl) (fun _ _ _ => .trans) _ _ r _
        (fun _ _ => .of_eq rfl) (fun _ vs => Chain.run_grows rest vs)
  | noFun r code =>
    refine hret r _ (fun hr => ?_)
    rw [hb]
    cases r <;> first | rfl | exact absurd rfl hr

end

/-! ## two runs from the same `errored` -/

/-- the same state but for earlier calls, earlier closures and the values -/
structure Shifted (tr : List (Event V)) (qu : List (Task V)) (t t' : Trail V) : Prop where
  errored : t'.errored = t.errored
  trace : t'.trace = tr ++ t.trace
  dyn_tq : t'.dyn_tq = qu ++ t.dyn_tq

section
variable {tr : List (Event V)} {qu : List (Task V)}

omit [Movable V] in
theorem Shifted.emit {t t' : Trail V} (h : Shifted tr qu t t') (e : Event V) :
    Shifted tr qu (t.emit e) (t'.emit e) := by
  refine ⟨h.errored, ?_, h.dyn_tq⟩
  show t'.trace ++ [e] = tr ++ (t.trace ++ [e])
  rw [h.trace, List.append_assoc]

omit [Movable V] in
theorem Shifted.add {t t' : Trail V} (h : Shifted tr qu t t') (k : Task V) :
    Shifted tr qu (t.add k) (t'.add k) := by
  refine ⟨h.errored, h.trace, ?_⟩
  show t'.dyn_tq ++ [k] = qu ++ (t.dyn_tq ++ [k])
  rw [h.dyn_tq, List.append_assoc]

omit [Movable V] in
theorem Chain.reject_shifted {s s' : Stage V} {rest rest' : Chain V} (hthis : s'.this = s.this)
    (hslot : s'.slot = s.slot) (hcaught : Chain.caught (s' :: rest') = Chain.caught (s :: rest))
    (b : Bool) : Sim (Shifted tr qu) (Chain.reject (s :: rest) b) (Chain.reject (s' :: rest') b) := by
  refine Chain.reject_sim hthis hslot hcaught (fun _ t t' h => ?_) (fun t t' x h => h.emit _)
  refine ⟨?_, h.trace, h.dyn_tq⟩
  show Function.update t'.errored s.this true = Function.update t.errored s.this true
  rw [h.errored]

/-- two runs of a stage from states that differ in the values only -/
theorem Chain.stage_shifted {B : Trail V → Prop} (hB : ∀ t t', Grows t t' → B t → B t')
    {s s' : Stage V} {rest rest' : Chain V} (hthis : s'.this = s.this) (hsame : s'.body = s.body)
    (hlast : rest'.isEmpty = rest.isEmpty)
    (hnext : ∀ vs, SimUnless B (Shifted tr qu) (Chain.run rest vs) (Chain.run rest' vs))
    (hrej : ∀ b, SimUnless B (Shifted tr qu) (Chain.reject (s :: rest) b)
      (Chain.reject (s' :: rest') b)) (args : List V) :
    SimUnless B (Shifted tr qu) (Chain.run (s :: rest) args) (Chain.run (s' :: rest') args) := by
  refine Chain.stage_simUnless hB (fun f t t' t₁ t₁' h ha ha' => ?_) hthis hsame hlast hnext
    (fun b _ => hrej b) (fun t t' k h => h.add k) (fun t t' h he => by rw [h.errored]; exact he)
    (fun _ _ t t' h he he' => ?_) args (fun t t' h => h.emit _)
  · exact ⟨by rw [ha'.errored, ha.errored, h.errored], by rw [ha'.trace, ha.trace, h.trace],
      by rw [ha'.dyn_tq, ha.dyn_tq, h.dyn_tq]⟩
  · rw [h.errored, he] at he'
    cases he'

end

/-! ## what a run shows -/

/-- How a program ended, the tasks it queued and the calls of user code it made. -/
structure Seen (V : Type) where
  result : Except Err Unit
  queued : List (Task V)
  calls : List (Event V)

def outcome {σ : Type} : EStateM.Result Err σ Unit → Except Err Unit
  | .ok _ _ => .ok ()
  | .error e _ => .error e

def seen (w : World V) (m : M V Unit) : Seen V where
  result := outcome (m w)
  queued := (final (m w)).dyn_tq.drop w.dyn_tq.length
  calls := (final (m w)).trace.drop w.trace.length

def Trail.seen (t : Trail V) (m : A V Unit) : Seen V where
  result := outcome (m t)
  queued := (final (m t)).dyn_tq.drop t.dyn_tq.length
  calls := (final (m t)).trace.drop t.trace.length

omit [Movable V] in
theorem outcome_eq {σ τ : Type} {R : σ → τ → Prop} {x : EStateM.Result Err σ Unit}
    {y : EStateM.Result Err τ Unit} (h : Rel R x y) : outcome x = outcome y := by
  cases x with
  | ok a s =>
    cases y with
    | ok b t => rfl
    | error e t => exact h.elim
  | error e s =>
    cases y with
    | ok b t => exact h.elim
    | error e' t => obtain ⟨rfl, -⟩ := h; rfl

omit [Movable V] in
theorem Trail.seen_calls {t : Trail V} {m : A V Unit} {l : List (Event V)}
    (h : (final (m t)).trace = t.trace ++ l) : (t.seen m).calls = l := by
  show (final (m t)).trace.drop t.trace.length = l
  rw [h, List.drop_left]

omit [Movable V] in
/-- what is shown from the start is all there is -/
theorem Trail.seen_calls_start {t : Trail V} (h : t.trace = []) (m : A V Unit) :
    (t.seen m).calls = (final (m t)).trace :=
  Trail.seen_calls (by rw [h, List.nil_append])

omit [Movable V] in
/-- the world after a program on `h` that is matched by one along the chain -/
theorem seen_sim {h : Heap V} {m : M V Unit} {n : A V Unit} (hsim : Sim (OnHeap h) m n) (t : Trail V) :
    seen (t.world h) m = t.seen n := by
  have hrel := hsim (t.world h) t rfl
  have hfin : final (m (t.world h)) = (final (n t)).world h := hrel.final
  unfold seen Trail.seen
  rw [outcome_eq hrel, hfin]
  rfl

/-- what the first run of `hd` shows -/
def firstRun (h : Heap V) (hd : Ref) (args : List V) : Seen V := seen (World.init h) (run hd args)

/-- what `run` shows on the head of a built chain -/
theorem seen_run {ok : Heap V → Ref → Prop} {h : Heap V} {cs : List (List Ref)}
    (hb : Built ok h cs) {hd : Ref} {fs : List Ref} (hc : hd :: fs ∈ cs) {F : Object V}
    (hF : h[hd]? = some F) (args : List V) (t : Trail V) :
    seen (t.world h) (run hd args) = t.seen (Chain.start F.kind hd (chain h fs) args) ∧
      final (run hd args (t.world h))
        = (final (Chain.start F.kind hd (chain h fs) args t)).world h :=
  ⟨seen_sim (run_chain hb hc hF args) t, (run_chain hb hc hF args (t.world h) t rfl).final⟩

/-- the first run -/
theorem seen_first_run {ok : Heap V → Ref → Prop} {h : Heap V} {cs : List (List Ref)}
    (hb : Built ok h cs) {hd : Ref} {fs : List Ref} (hc : hd :: fs ∈ cs) (args : List V) :
    ∃ t : Trail V, t.errored = (fun _ => false) ∧ t.trace = [] ∧ t.dyn_tq = [] ∧
      firstRun h hd args = t.seen (Chain.run (chain h fs) (delivered h hd args)) := by
  obtain ⟨f, F, hf, hF, hk⟩ := hb.wf.head _ hc
  obtain rfl : hd = f := by simpa using hf
  have h1 := (seen_run hb hc hF args (World.init h).trail).1
  obtain ⟨t, h2, h3, h4, h5, -⟩ := Chain.start_run hF hk (chain h fs) args
    (t := (World.init h).trail) (fun _ => by simp [World.trail, World.init, hF])
  refine ⟨t, ?_, h4, h5, ?_⟩
  · funext r
    rw [h3, hb.init_errored r]
  · have hw : (World.init h).trail.world h = World.init h := World.trail_world (World.init h)
    rw [hw] at h1
    unfold firstRun
    rw [h1]
    unfold Trail.seen
    rw [h2, h4, h5]

end

end Future
end Pharoah
