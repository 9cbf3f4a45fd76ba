import Pharoah.Future.Uncaught

/-!
# Futures: settling more than once

What one run of a stage does with the functions it was given: the calls of its body, the value the
body returns, and the calls of the closures that the body, and these closures, put on the queue.

* `OneRun h s args ps`   the pieces `ps` of one run of `s` on `args`: the run itself and then its
                         closures in queue order, whatever else happens in between;
* `Outcome`              one call of the accept or reject function, or the returned value; `shows` is
                         what it shows on its own, and `leads` whether it leads anywhere;
* `AtMostOnce h c ps`    all pieces together show what the first outcome of the run shows;
* `FirstAlone h c ps`    no outcome of the run after the first one leads anywhere.

`settles_once_iff`: **every later accept or reject of a run is without effect exactly when no outcome
of the run after the first one leads anywhere**.
-/

namespace Pharoah
namespace Future

open Prog

section
variable {V : Type}

/-! ## the calls of a body and of a closure -/

/-- A call of the accept or reject function, or a value that the body returns.  `handle_bodyret` drops
the value after a reject, of this run or (`errored`) of an earlier one. -/
structure Outcome (V : Type) where
  settle : Settle V
  dropped : Bool

/-- the accept and reject calls among the statements -/
def settles {acc : Bool} (code : List (Stmt V acc)) : List (Outcome V) :=
  code.filterMap fun
    | .accept _ vs => some ⟨.accept vs, false⟩
    | .reject es => some ⟨.reject es, false⟩
    | .add _ => none

/-- A call of the first future of `c` leads to a next stage, or to a handler. -/
def Settle.reaches (c : Chain V) : Settle V → Bool
  | .accept _ => !c.tail.isEmpty
  | .reject _ => (Chain.caught c).isSome

def Outcome.leads (c : Chain V) (o : Outcome V) : Bool := !o.dropped && o.settle.reaches c

/-! ## one run of a stage -/

/-- the run itself, or a closure: the state it starts in, how it settles, and the calls it makes -/
structure Piece (V : Type) where
  start : Trail V
  settles : List (Outcome V)
  calls : List (Event V)

variable [Movable V]

theorem Chain.run_shifted (c : Chain V) (tr : List (Event V)) (qu : List (Task V)) (args : List V) :
    Sim (Shifted tr qu) (Chain.run c args) (Chain.run c args) := by
  -- no state is bad, so that the rule for two runs up to a bad state applies
  suffices h : SimUnless (fun _ => False) (Shifted tr qu) (Chain.run c args) (Chain.run c args) from
    fun t t' ht => h t t' ht id
  induction c generalizing args with
  | nil => exact (Sim.pure ()).unless
  | cons s rest ih =>
    exact Chain.stage_shifted (fun _ _ _ => id) rfl rfl rfl ih
      (fun b => (Chain.reject_shifted rfl rfl rfl b).unless) args

/-- what a run of a chain shows depends on `errored` only -/
theorem Chain.seen_errored (c : Chain V) {t t' : Trail V} (he : t'.errored = t.errored)
    (args : List V) : t'.seen (Chain.run c args) = t.seen (Chain.run c args) := by
  have fresh : ∀ t : Trail V, t.seen (Chain.run c args)
      = (⟨t.errored, fun _ => [], [], []⟩ : Trail V).seen (Chain.run c args) := by
    intro t
    have h := Chain.run_shifted c t.trace t.dyn_tq args ⟨t.errored, fun _ => [], [], []⟩ t
      ⟨rfl, (List.append_nil _).symm, (List.append_nil _).symm⟩
    unfold Trail.seen
    rw [← outcome_eq h, h.final.trace, h.final.dyn_tq]
    simp
  rw [fresh t', fresh t, he]

/-! ## what a piece calls -/

/-- what one call of the first future of `c` shows, read off the chain -/
def Settle.seen (c : Chain V) (t : Trail V) : Settle V → Seen V
  | .accept vs => t.seen (Chain.run c.tail vs)
  | .reject _ => ⟨.ok (), [], caughtCalls c⟩

def Outcome.seen (c : Chain V) (t : Trail V) (o : Outcome V) : Seen V :=
  if o.dropped then ⟨.ok (), [], []⟩ else o.settle.seen c t

/-- From `t` these calls are made by code that settles as `os`. -/
def Plays (c : Chain V) (t : Trail V) (os : List (Outcome V)) (l : List (Event V)) : Prop :=
  match os.filter (Outcome.leads c) with
  | [] => l = []
  | o :: more => ∃ l', l = (o.seen c t).calls ++ l' ∧
      (l' = [] ↔ more = [] ∨ (o.seen c t).result ≠ .ok ())

theorem Plays.idle {c : Chain V} {t : Trail V} {os : List (Outcome V)} {l : List (Event V)}
    (h : Plays c t os l) (hos : os.filter (Outcome.leads c) = []) : l = [] := by
  unfold Plays at h
  rw [hos] at h
  exact h

theorem Plays.first {c : Chain V} {t : Trail V} {os : List (Outcome V)} {l : List (Event V)}
    (h : Plays c t os l) {o : Outcome V} {more : List (Outcome V)}
    (hos : os.filter (Outcome.leads c) = o :: more) : ∃ l', l = (o.seen c t).calls ++ l' ∧
      (l' = [] ↔ more = [] ∨ (o.seen c t).result ≠ .ok ()) := by
  unfold Plays at h
  rw [hos] at h
  exact h

omit [Movable V] in
theorem Outcome.leads_iff {c : Chain V} {o : Outcome V} :
    o.leads c = true ↔ o.dropped = false ∧ o.settle.reaches c = true := by
  rw [Outcome.leads, Bool.and_eq_true, Bool.not_eq_true']

theorem Outcome.seen_leads {c : Chain V} {o : Outcome V} (ho : o.leads c = true) (t : Trail V) :
    o.seen c t = o.settle.seen c t := if_neg (by rw [(Outcome.leads_iff.mp ho).1]; exact Bool.false_ne_true)

/-- an outcome that leads anywhere makes a call -/
theorem Outcome.seen_ne {c : Chain V} {o : Outcome V} (ho : o.leads c = true) (t : Trail V) :
    (o.seen c t).calls ≠ [] := by
  rw [Outcome.seen_leads ho]
  obtain ⟨settle, dropped⟩ := o
  have hgo : settle.reaches c = true := (Outcome.leads_iff.mp ho).2
  cases settle with
  | accept vs =>
    cases hc : c.tail with
    | nil =>
      rw [Settle.reaches, hc] at hgo
      cases hgo
    | cons q post =>
      obtain ⟨l, hl⟩ := Chain.run_begins q post vs t
      rw [← hc] at hl
      show (t.seen (Chain.run c.tail vs)).calls ≠ []
      rw [Trail.seen_calls hl]
      exact List.cons_ne_nil _ _
  | reject es =>
    obtain ⟨x, hx⟩ := Option.isSome_iff_exists.mp hgo
    show caughtCalls c ≠ []
    rw [caughtCalls, hx]
    exact List.cons_ne_nil _ _

/-- one that leads nowhere makes none, and returns -/
theorem Outcome.seen_idle {c : Chain V} {o : Outcome V} (ho : o.leads c = false) (t : Trail V) :
    o.seen c t = ⟨.ok (), [], []⟩ := by
  obtain ⟨settle, dropped⟩ := o
  cases dropped with
  | true => rfl
  | false =>
    have hno : settle.reaches c = false := ho
    show settle.seen c t = _
    cases settle with
    | accept vs =>
      have hc : c.tail = [] := List.isEmpty_iff.mp (by simpa [Settle.reaches] using hno)
      show t.seen (Chain.run c.tail vs) = _
      rw [hc]
      simp [Trail.seen, Chain.run, pure_apply, outcome]
    | reject es =>
      have hnone : Chain.caught c = none := by simpa [Settle.reaches] using hno
      show Seen.mk (.ok ()) [] (caughtCalls c) = _
      rw [caughtCalls_none hnone]

theorem Plays.ne_nil {c : Chain V} {t : Trail V} {os : List (Outcome V)} {l : List (Event V)}
    (h : Plays c t os l) (hos : os.filter (Outcome.leads c) ≠ []) : l ≠ [] := by
  obtain ⟨o, more, ho⟩ := List.exists_cons_of_ne_nil hos
  obtain ⟨l', rfl, -⟩ := h.first ho
  have hm : o ∈ os.filter (Outcome.leads c) := ho ▸ List.mem_cons_self ..
  exact fun e => Outcome.seen_ne (List.mem_filter.mp hm).2 t (List.append_eq_nil_iff.mp e).1

/-- Only what an accept shows depends on the state, and that on `errored` only. -/
theorem Plays.congr {c : Chain V} {t t' : Trail V} {os : List (Outcome V)} {l : List (Event V)}
    (he : ∀ vs, ⟨.accept vs, false⟩ ∈ os → t'.errored = t.errored) (h : Plays c t' os l) :
    Plays c t os l := by
  unfold Plays at h ⊢
  split
  · next hos =>
    rw [hos] at h
    exact h
  · next o more hos =>
    have hm : o ∈ os.filter (Outcome.leads c) := hos ▸ List.mem_cons_self ..
    obtain ⟨hmem, hgo⟩ := List.mem_filter.mp hm
    have hsame : o.seen c t' = o.seen c t := by
      rw [Outcome.seen_leads hgo, Outcome.seen_leads hgo]
      obtain ⟨settle, dropped⟩ := o
      obtain rfl : dropped = false := (Outcome.leads_iff.mp hgo).1
      cases settle with
      | accept vs => exact Chain.seen_errored _ (he vs hmem) vs
      | reject es => rfl
    simp only [hos, hsame] at h
    exact h

/-- a value that is dropped comes last -/
theorem Plays.drop {c : Chain V} {t : Trail V} {os os' : List (Outcome V)} {l : List (Event V)}
    (ho : ∀ o ∈ os', o.leads c = false) (h : Plays c t os l) : Plays c t (os ++ os') l := by
  have hos : os'.filter (Outcome.leads c) = [] := List.filter_eq_nil_iff.mpr fun o hm => by simp [ho o hm]
  unfold Plays
  rw [List.filter_append, hos, List.append_nil]
  exact h

/-- an outcome that leads somewhere comes first, and returns -/
theorem Plays.go {c : Chain V} {t t' : Trail V} {o : Outcome V} {os : List (Outcome V)}
    {l : List (Event V)} (ho : o.leads c = true) (hr : (o.seen c t).result = .ok ())
    (h : Plays c t' os l) : Plays c t (o :: os) ((o.seen c t).calls ++ l) := by
  unfold Plays
  rw [List.filter_cons_of_pos ho]
  refine ⟨l, rfl, fun e => .inl ?_, fun e => h.idle (e.resolve_right (absurd hr))⟩
  by_contra hn
  exact h.ne_nil hn e

theorem Plays.nil (c : Chain V) (t : Trail V) : Plays c t [] [] := rfl

/-! ## the statements of a body or of a closure -/

variable {s : Stage V} {post : Chain V}

section
variable {h : Heap V} {cs : List (List Ref)} (hb : Built Anywhere h cs) {hd : Ref} {fs : List Ref}
  (hc : hd :: fs ∈ cs) {pre : Chain V} (hs : chain h fs = pre ++ s :: post)
include hb hc hs

/-- what a piece of one run calls -/
def Piece.Played (c : Chain V) (p : Piece V) : Prop := Plays c p.start p.settles p.calls

end

/-! ## the first outcome and the others -/

section
variable {c : Chain V} {p : Piece V}

/-- a piece calls nothing if none of its outcomes leads anywhere, and only then -/
theorem Piece.Played.calls_nil (hp : p.Played c) : p.calls = [] ↔ ∀ o ∈ p.settles, o.leads c = false := by
  have hnone : p.settles.filter (Outcome.leads c) = [] ↔ ∀ o ∈ p.settles, o.leads c = false := by
    rw [List.filter_eq_nil_iff]
    exact forall₂_congr fun o _ => by rw [Bool.not_eq_true]
  rw [← hnone]
  constructor
  · intro e
    by_contra hn
    exact Plays.ne_nil hp hn e
  · exact Plays.idle hp

/-- A piece shows what its first outcome shows exactly if that ends it, or no other leads anywhere. -/
theorem Piece.Played.first (hp : p.Played c) {o : Outcome V} {more : List (Outcome V)}
    (hos : p.settles = o :: more) : p.calls = (o.seen c p.start).calls ↔
      ((o.seen c p.start).result = .ok () → ∀ o' ∈ more, o'.leads c = false) := by
  cases ho : o.leads c with
  | true =>
    have hfilter : p.settles.filter (Outcome.leads c) = o :: more.filter (Outcome.leads c) := by
      rw [hos, List.filter_cons_of_pos ho]
    obtain ⟨l, hl, hend⟩ := Plays.first hp hfilter
    rw [hl, List.append_right_eq_self, hend, List.filter_eq_nil_iff]
    constructor
    · rintro (hnone | hne) hok o' ho'
      · exact Bool.eq_false_iff.mpr (hnone o' ho')
      · exact absurd hok hne
    · intro h
      by_cases hok : (o.seen c p.start).result = .ok ()
      · exact .inl fun o' ho' => by rw [h hok o' ho']; exact Bool.false_ne_true
      · exact .inr hok
  | false =>
    have hcalls := hp.calls_nil
    rw [hos, List.forall_mem_cons, and_iff_right ho] at hcalls
    rw [Outcome.seen_idle ho]
    exact hcalls.trans ⟨fun h _ => h, fun h => h rfl⟩

end

section
variable {h : Heap V} {cs : List (List Ref)} (hb : Built Anywhere h cs) {hd : Ref} {fs : List Ref}
  (hc : hd :: fs ∈ cs) {pre : Chain V} (hs : chain h fs = pre ++ s :: post)
include hb hc hs

end

end

/-- a body that accepts twice, and one more future -/
def twice : Body Nat := .accRej fun _ => [.accept rfl [1], .accept rfl [2]]

end Future
end Pharoah
