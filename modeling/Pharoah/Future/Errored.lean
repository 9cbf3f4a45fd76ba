import Pharoah.Future.Compare

/-!
# Futures: what a set `errored` does

A body that was given a reject function and returns a value sets `errored` when it rejects, and
nothing resets it.

* `rejects code`         the statements call the reject function;
* `Chain.exec_rejects`   after them `errored` is set if it was or if they reject;
* `Shuts Z f p t t'`     from `t` to `t'`, the body of `p` is not called once `errored` of `f` is
                         set, and an input of `f` with `Z` sets it;
* `shuts_chain`          **a run of a chain shuts the future after one that has `errored`**.
-/

namespace Pharoah
namespace Future

open Prog

section
variable {V : Type}

def rejects {acc : Bool} (code : List (Stmt V acc)) : Bool :=
  code.any fun
    | .reject _ => true
    | _ => false

/-- the body is of a style that sets `errored`, and does so on `args` -/
def Body.rejectsOn (b : Body V) (args : List V) : Bool :=
  match b with
  | .rej _ code => rejects (code args).1
  | _ => false

/-- what the statements of a body with only a reject function do -/
theorem Chain.exec_rejects {P : Event V → Prop} (hx : ∀ x, P (.handler x []))
    (next : List V → A V Unit) {s : Stage V} (rest : Chain V) (code : List (Stmt V false))
    (t : Trail V) :
    Emits P t (final (Chain.exec next (s :: rest) s.this code t)) ∧
      (final (Chain.exec next (s :: rest) s.this code t)).errored s.this
        = (t.errored s.this || rejects code) ∧
      ∀ u, u ≠ s.this →
        (final (Chain.exec next (s :: rest) s.this code t)).errored u = t.errored u := by
  refine ⟨Chain.exec_emits rest s.this hx code (fun h => absurd h (by simp)) t, ?_, ?_⟩
  · induction code generalizing t with
    | nil => simp [Chain.exec, pure_apply, rejects]
    | cons st code ih =>
      cases st with
      | accept h vs => exact absurd h (by simp)
      | reject es =>
        have h1 : Moves (fun t t' : Trail V => t.errored s.this = true → t'.errored s.this = true)
            (Chain.exec next (s :: rest) s.this code) :=
          Chain.exec_moves (T := fun t t' : Trail V =>
              t.errored s.this = true → t'.errored s.this = true)
            (fun _ => id) (fun _ _ _ a b => b ∘ a) rest s.this
            (fun _ t _ => Function.update_self ..) (fun _ _ => id) (fun _ _ => id) code
            (fun h => absurd h (by simp))
        have h2 : (final (Chain.reject (s :: rest) true t)).errored s.this = true := by
          have := Chain.reject_moves
            (T := fun t t' : Trail V => t'.errored s.this = t.errored s.this)
            (fun _ => rfl) (fun _ _ _ a b => b.trans a) (s := s) rest (b := false) (by simp)
            (fun _ _ => rfl) (t.setErrored s.this)
          exact this.trans (Function.update_self ..)
        have h3 : rejects (Stmt.reject es :: code) = true := rfl
        rw [h3, Bool.or_true, Chain.exec, Bool.not_false]
        cases hr : Chain.reject (s :: rest) true t with
        | ok u t₁ =>
          rw [hr] at h2
          rw [bind_ok hr]
          exact h1 t₁ h2
        | error e t₁ =>
          rw [hr] at h2
          rw [bind_error hr]
          exact h2
      | add task => exact ih (t.add ⟨false, s.this, task⟩)
  · intro u hu
    exact Chain.exec_moves (T := fun t t' : Trail V => t'.errored u = t.errored u) (fun _ => rfl)
      (fun _ _ _ a b => b.trans a) rest s.this (fun _ _ => Function.update_of_ne hu ..)
      (fun _ _ => rfl) (fun _ _ => rfl) code (fun h => absurd h (by simp)) t

/-! ## the next stage is shut -/

def Shuts (Z : List V → Prop) (f p : Ref) (t t' : Trail V) : Prop :=
  ∃ l, t'.trace = t.trace ++ l ∧
    (t.errored f = true → t'.errored f = true ∧ ∀ a, Event.body p a ∉ l) ∧
    ∀ l₁ a l₂, l = l₁ ++ .body f a :: l₂ → Z a →
      t'.errored f = true ∧ ∀ a', Event.body p a' ∉ l₂

variable {Z : List V → Prop} {f p : Ref}

theorem Shuts.of_eq {t t' : Trail V} (h : t'.trace = t.trace)
    (he : t.errored f = true → t'.errored f = true) : Shuts Z f p t t' :=
  ⟨[], by simp [h], fun h => ⟨he h, by simp⟩, fun l₁ a l₂ hl => by simp at hl⟩

theorem Shuts.emit {e : Event V} (he : ∀ a, e ≠ .body f a) (hp : ∀ a, e ≠ .body p a)
    (t : Trail V) : Shuts Z f p t (t.emit e) := by
  refine ⟨[e], rfl, fun h => ⟨h, fun a ha => ?_⟩, fun l₁ a l₂ hl => ?_⟩
  · exact hp a (List.mem_singleton.mp ha).symm
  rcases List.cons_eq_append_iff.mp hl with ⟨-, h⟩ | ⟨m, -, h⟩
  · obtain ⟨h1, -⟩ := List.cons_eq_cons.mp h
    exact absurd h1.symm (he a)
  · simp at h

theorem Shuts.trans {t₁ t₂ t₃ : Trail V} (h : Shuts Z f p t₁ t₂) (h' : Shuts Z f p t₂ t₃) :
    Shuts Z f p t₁ t₃ := by
  obtain ⟨l, hl, he, hf⟩ := h
  obtain ⟨l', hl', he', hf'⟩ := h'
  refine ⟨l ++ l', by rw [hl', hl, List.append_assoc], fun h1 => ?_, fun l₁ a l₂ hs ha => ?_⟩
  · obtain ⟨h2, h3⟩ := he h1
    obtain ⟨h4, h5⟩ := he' h2
    refine ⟨h4, fun a ha => ?_⟩
    rcases List.mem_append.mp ha with ha | ha
    · exact h3 a ha
    · exact h5 a ha
  · rcases split_append hs with ⟨m, h1, h2⟩ | ⟨m, h1⟩
    · obtain ⟨h3, h4⟩ := hf l₁ a m h1 ha
      obtain ⟨h5, h6⟩ := he' h3
      refine ⟨h5, fun a' ha' => ?_⟩
      rw [h2] at ha'
      rcases List.mem_append.mp ha' with ha' | ha'
      · exact h4 a' ha'
      · exact h6 a' ha'
    · exact hf' m a l₂ h1 ha

theorem Shuts.of_entry {t t' : Trail V} (args : List V) {l : List (Event V)}
    (h : t'.trace = t.trace ++ .body f args :: l) (hl : ∀ a, Event.body f a ∉ l) (hne : f ≠ p)
    (hp : t.errored f = true ∨ Z args → t'.errored f = true ∧ ∀ a, Event.body p a ∉ l) :
    Shuts Z f p t t' := by
  refine ⟨_, h, fun he => ?_, fun l₁ a l₂ he ha => ?_⟩
  · obtain ⟨h1, h2⟩ := hp (.inl he)
    refine ⟨h1, fun a ha => ?_⟩
    rcases List.mem_cons.mp ha with ha | ha
    · cases ha; exact hne rfl
    · exact h2 a ha
  · rcases List.cons_eq_append_iff.mp he with ⟨-, h'⟩ | ⟨m, -, h'⟩
    · obtain ⟨h1, rfl⟩ := List.cons_eq_cons.mp h'
      cases h1
      exact hp (.inr ha)
    · exact absurd (h' ▸ List.mem_append_right _ (List.mem_cons_self ..)) (hl a)

variable [Movable V] {r : Ret} {code : List V → List (Stmt V false) × List V} {y : Slot}
  {x : Option Ref} {q : Stage V} {post : Chain V}

theorem shuts_stage (hf : f ∉ (q :: post).map Stage.this) (args : List V) :
    Moves (Shuts (fun a => rejects (code a).1 = true) f q.this)
      (Chain.run (⟨f, .rej r code, y, x⟩ :: q :: post) args) := by
  intro t
  have hq : f ≠ q.this := fun e => hf (by simp [e])
  obtain ⟨l, hl, hne⟩ := Chain.run_entry (s := ⟨f, .rej r code, y, x⟩) hf args t
  refine Shuts.of_entry args (l := l) (by rw [hl]; simp [Trail.emit]) (fun a ha => hne _ ha a rfl)
    hq (fun hor => ?_)
  -- from the call of the body on, no other body is called, and `errored` is set
  suffices h : Emits (fun e => ∀ a, e ≠ .body q.this a) (t.emit (.body f args))
      (final (Chain.run (⟨f, .rej r code, y, x⟩ :: q :: post) args t)) ∧
      (final (Chain.run (⟨f, .rej r code, y, x⟩ :: q :: post) args t)).errored f = true by
    obtain ⟨⟨l', h1, h2⟩, h3⟩ := h
    obtain rfl : l = l' := List.append_cancel_left (hl.symm.trans h1)
    exact ⟨h3, fun a ha => h2 _ ha a rfl⟩
  obtain ⟨h1, h2, -⟩ := Chain.exec_rejects (P := fun e => ∀ a, e ≠ .body q.this a) (by simp)
    (Chain.run (q :: post)) (s := ⟨f, .rej r code, y, x⟩) (q :: post) (code args).1
    (t.emit (.body f args))
  have he : (t.errored f || rejects (code args).1) = true := by
    rcases hor with h | h <;> simp [h]
  rw [Chain.run, bind_ok (modify_apply _ t)]
  show Emits _ _ (final ((Chain.exec _ _ _ _ >>= _) _)) ∧
    (final ((Chain.exec _ _ _ _ >>= _) _)).errored f = true
  cases hy : Chain.exec (Chain.run (q :: post)) (⟨f, .rej r code, y, x⟩ :: q :: post) f
      (code args).1 (t.emit (.body f args)) with
  | ok u t₁ =>
    rw [hy] at h1 h2
    have h3 : t₁.errored f = true := h2.trans he
    obtain ⟨t₂, e, h4, h5, -⟩ := Chain.callbody_stop (Chain.run (q :: post)) false f r
      (code args).2 (t := t₁) (.inr (.inl h3))
    rw [bind_ok hy, List.isEmpty_cons, e]
    exact ⟨h1.trans (.of_eq h5), (congrFun h4 f).trans h3⟩
  | error e t₁ =>
    rw [hy] at h1 h2
    rw [bind_error hy]
    exact ⟨h1, h2.trans he⟩

/-- **Once a future has `errored` the one after it is not run**, and it has `errored` once its
body rejects. -/
theorem shuts_chain {pre : Chain V}
    (hnd : ((pre ++ ⟨f, .rej r code, y, x⟩ :: q :: post).map Stage.this).Nodup)
    (args : List V) :
    Moves (Shuts (fun a => rejects (code a).1 = true) f q.this)
      (Chain.run (pre ++ ⟨f, .rej r code, y, x⟩ :: q :: post) args) := by
  induction pre generalizing args with
  | nil => exact shuts_stage (List.nodup_cons.mp hnd).1 args
  | cons s pre ih =>
    rw [List.cons_append, List.map_cons, List.nodup_cons] at hnd
    have hs : f ≠ s.this := fun e => hnd.1 (by simp [← e])
    have hq : q.this ≠ s.this := fun e => hnd.1 (by simp [← e])
    refine Chain.stage_moves (fun _ => .of_eq rfl id) (fun _ _ _ => .trans) args (fun t => ?_)
      (fun _ _ => .of_eq rfl id) (fun _ _ => .of_eq rfl id) (fun t _ => .emit (by simp) (by simp) t)
      (fun t => .emit (fun a he => ?_) (fun a he => ?_) t) (fun _ => ih hnd.2)
    · refine .of_eq rfl (fun he => ?_)
      show Function.update t.errored s.this true f = true
      rw [Function.update_of_ne hs]
      exact he
    · exact hs (Event.body.inj he).1.symm
    · exact hq (Event.body.inj he).1.symm

end

end Future
end Pharoah
