import Pharoah.Future.Places
import Pharoah.Future.Uncaught

/-!
# Futures: a handler attached before the continuation

`then` and `except` store their closure in the same `nxtForward`, and each replaces what the other
has stored.

* `Reordered f b n x l l'`   the same calls in two orders: `l` attaches the handler `x` to `f` after
                             the continuation, `l'` before it;
* `Chain.leads f c`          a reject of the first future of `c` is passed on to `f`;
* `Spared c f calls`         in these calls no future whose rejects are passed on to `f` rejects;
* `Compares C x m m'`        what the two orders have to do with each other, for a run or a closure.

`commute_iff`: **the two orders make the same calls exactly when no reject is passed on to `f`**.
-/

namespace Pharoah
namespace Future

open Prog

section
variable {V : Type}

/-- a reject of the first future of the chain is passed on to `f` -/
def Chain.leads (f : Ref) : Chain V → Bool
  | [] => false
  | s :: rest => s.this = f || (s.slot = .next && Chain.leads f rest)

/-- `e` is not the call of a body that rejects and whose rejects are passed on to `f` -/
def Spares (c : Chain V) (f : Ref) (e : Event V) : Prop :=
  ∀ pre p post, c = pre ++ p :: post → Chain.leads f (p :: post) = true →
    ∀ a, e = .body p.this a → p.body.callsReject a = false

def Spared (c : Chain V) (f : Ref) (calls : List (Event V)) : Prop := ∀ e ∈ calls, Spares c f e

/-- the stage, with a continuation that has replaced the handler of `f` -/
def Stage.lose (f : Ref) (s : Stage V) : Stage V := if s.this = f then { s with slot := .next } else s

@[simp] theorem Stage.lose_this (f : Ref) (s : Stage V) : (s.lose f).this = s.this := by
  unfold Stage.lose
  split <;> rfl

@[simp] theorem Stage.lose_body (f : Ref) (s : Stage V) : (s.lose f).body = s.body := by
  unfold Stage.lose
  split <;> rfl

theorem Stage.lose_other {f : Ref} {s : Stage V} (hs : s.this ≠ f) : s.lose f = s := if_neg hs

/-! ## where a reject goes -/

/-- `x` is the handler of `f` and of no other future -/
def OnlyAt (f x : Ref) (c : Chain V) : Prop := ∀ s ∈ c, s.slot = .handler x ↔ s.this = f

section
variable {f x : Ref}

theorem OnlyAt.tail {s : Stage V} {rest : Chain V} (h : OnlyAt f x (s :: rest)) : OnlyAt f x rest :=
  fun s' hs' => h s' (List.mem_cons_of_mem _ hs')

theorem OnlyAt.caught_iff {c : Chain V} (h : OnlyAt f x c) :
    Chain.caught c = some x ↔ Chain.leads f c = true := by
  induction c with
  | nil => simp [Chain.caught, Chain.leads]
  | cons s rest ih =>
    have h1 := h s (List.mem_cons_self ..)
    unfold Chain.caught Chain.leads
    cases hslot : s.slot with
    | empty =>
      have hne : s.this ≠ f := fun e => by rw [h1.mpr e] at hslot; cases hslot
      simp [hne]
    | next =>
      have hne : s.this ≠ f := fun e => by rw [h1.mpr e] at hslot; cases hslot
      simpa [hne] using ih h.tail
    | handler y =>
      rw [hslot] at h1
      simpa using h1

/-- past `f` its reject goes on to a handler that is not its own -/
theorem OnlyAt.caught_lose {c : Chain V} (h : OnlyAt f x c) :
    Chain.caught (c.map (Stage.lose f)) ≠ some x := by
  intro hx
  obtain ⟨s, hs, hslot⟩ := caught_slot hx
  obtain ⟨s₀, hs₀, rfl⟩ := List.mem_map.mp hs
  unfold Stage.lose at hslot
  split at hslot
  · cases hslot
  · next hne => exact hne ((h s₀ hs₀).mp hslot)

theorem caught_lose_eq {c : Chain V} (h : Chain.leads f c = false) :
    Chain.caught (c.map (Stage.lose f)) = Chain.caught c := by
  induction c with
  | nil => rfl
  | cons s rest ih =>
    unfold Chain.leads at h
    rw [Bool.or_eq_false_iff, Bool.and_eq_false_iff] at h
    obtain ⟨h1, h2⟩ := h
    rw [List.map_cons, Stage.lose_other (by simpa using h1)]
    unfold Chain.caught
    cases hslot : s.slot with
    | empty => rfl
    | next => exact ih (h2.resolve_left (by simp [hslot]))
    | handler y => rfl

/-- a reject that is passed on to `f` calls its handler -/
theorem OnlyAt.reject_calls {s : Stage V} {rest : Chain V} (h : OnlyAt f x (s :: rest))
    (hl : Chain.leads f (s :: rest) = true) (b : Bool) (t : Trail V) :
    ∃ t', Chain.reject (s :: rest) b t = .ok () t' ∧ t'.trace = t.trace ++ [.handler x []] := by
  have hx := h.caught_iff.mpr hl
  have hs : s.slot ≠ .empty := by
    intro e
    rw [Chain.caught, e] at hx
    cases hx
  obtain ⟨t', h1, h2, -⟩ := Chain.reject_eq rest hs b t
  refine ⟨t', h1, ?_⟩
  rw [h2, caughtCalls, hx]
  rfl

/-! ## the two orders side by side -/

/-- the handler is called, if the program returns -/
def Calls (x : Ref) (l : List (Event V)) (r : Option Err) : Prop :=
  r = none → Event.handler x [] ∈ l

variable [Movable V]

/-- In `m` the handler `x` has been attached last, in `m'` first, and `C` holds of the calls of `m`
if it does not reach the handler. -/
structure Compares (C : List (Event V) → Prop) (x : Ref) (m m' : A V Unit) : Prop where
  same : SimUnless (fun t => Event.handler x [] ∈ t.trace) (Shifted [] []) m m'
  never : Logs Trail.trace (fun l _ => Event.handler x [] ∉ l) m'
  spared : Logs Trail.trace (fun l _ => C l → Event.handler x [] ∉ l) m
  called : Logs Trail.trace (fun l r => ¬ C l → Calls x l r) m

omit [Movable V] in
/-- what two such programs show -/
theorem Compares.seen {C : List (Event V) → Prop} {m m' : A V Unit} (h : Compares C x m m')
    {t : Trail V} (ht : t.trace = []) :
    ((t.seen m).calls = (t.seen m').calls ↔ Event.handler x [] ∉ (t.seen m).calls) ∧
      (C (t.seen m).calls → Event.handler x [] ∉ (t.seen m).calls) ∧
      ((t.seen m).result = .ok () → Event.handler x [] ∉ (t.seen m).calls → C (t.seen m).calls) := by
  have hall : ∀ m : A V Unit, (t.seen m).calls = (final (m t)).trace := by
    intro m
    show (final (m t)).trace.drop t.trace.length = _
    rw [ht]
    rfl
  refine ⟨⟨fun he => ?_, fun hno => ?_⟩, Trail.seen_logs h.spared t, fun hok hno => ?_⟩
  · rw [he]
    exact Trail.seen_logs h.never t
  · rw [hall] at hno
    have hrel := h.same t t ⟨rfl, rfl, rfl⟩ hno
    rw [hall, hall, hrel.final.trace, List.nil_append]
  · by_contra hC
    have hret : thrown (m t) = none := by
      rw [Trail.seen_result] at hok
      cases hr : thrown (m t) with
      | none => rfl
      | some e => rw [hr] at hok; cases hok
    exact hno (Trail.seen_logs h.called t hC hret)

section
variable {s : Stage V} {rest : Chain V}

omit [Movable V] in
theorem lose_reject (h : OnlyAt f x (s :: rest)) (b : Bool) :
    SimUnless (fun t => Event.handler x [] ∈ t.trace) (Shifted [] []) (Chain.reject (s :: rest) b)
      (Chain.reject ((s :: rest).map (Stage.lose f)) b) := by
  cases hl : Chain.leads f (s :: rest) with
  | true =>
    intro t t' _ hn
    obtain ⟨t₁, h1, h2⟩ := h.reject_calls hl b t
    rw [h1] at hn
    refine absurd ?_ hn
    show Event.handler x [] ∈ t₁.trace
    rw [h2]
    simp
  | false =>
    have hne : s.this ≠ f := by
      intro e
      simp [Chain.leads, e] at hl
    have hslot : (s.lose f).slot = s.slot := by rw [Stage.lose_other hne]
    exact (Chain.reject_shifted (s.lose_this f) hslot (caught_lose_eq hl) b).unless

/-- As long as the handler of `f` is not called, the two orders run a chain alike. -/
theorem lose_run {c : Chain V} (h : OnlyAt f x c) (args : List V) :
    SimUnless (fun t => Event.handler x [] ∈ t.trace) (Shifted [] []) (Chain.run c args)
      (Chain.run (c.map (Stage.lose f)) args) := by
  induction c generalizing args with
  | nil => exact (Sim.pure ()).unless
  | cons s rest ih =>
    refine Chain.stage_shifted (fun t t' hg => hg.mem) (s.lose_this f) (s.lose_body f) ?_
      (fun vs => ih h.tail vs) (lose_reject h) args
    cases rest <;> rfl

omit [Movable V] in
/-- a reject after the handler has been replaced -/
theorem lost_reject (h : OnlyAt f x (s :: rest)) (b : Bool) :
    Logs Trail.trace (fun l _ => Event.handler x [] ∉ l)
      (Chain.reject ((s :: rest).map (Stage.lose f)) b) := by
  refine Chain.reject_logs (by simp) (by simp) (fun y hy hm => ?_) b
  have h1 : Event.handler (V := V) x [] = .handler y [] := List.mem_singleton.mp hm
  exact h.caught_lose ((Event.handler.inj h1).1 ▸ hy)

omit [Movable V] in
theorem not_mem_append {e : Event V} {l l' : List (Event V)} (h : e ∉ l) (h' : e ∉ l') :
    e ∉ l ++ l' := fun hm => (List.mem_append.mp hm).elim h h'

theorem lost_run {c : Chain V} (h : OnlyAt f x c) (args : List V) :
    Logs Trail.trace (fun l _ => Event.handler x [] ∉ l)
      (Chain.run (c.map (Stage.lose f)) args) := by
  refine Chain.run_logs_every (by simp) (fun _ _ _ => not_mem_append) (by simp)
    (fun pre s' post hc b => ?_) args
  obtain ⟨pre₀, d, rfl, -, hd⟩ := List.map_eq_append_iff.mp hc
  obtain ⟨s₀, post₀, rfl, rfl, rfl⟩ := List.map_eq_cons_iff.mp hd
  exact lost_reject (fun s' hs' => h s' (List.mem_append_right pre₀ hs')) b

end


/-! ## which calls reach the handler -/

section
omit [Movable V]

theorem stage_unique {pre pre' post post' : Chain V} {s p : Stage V}
    (hnd : ((pre ++ s :: post).map Stage.this).Nodup) (hc : pre ++ s :: post = pre' ++ p :: post')
    (he : s.this = p.this) : s = p ∧ post = post' := by
  induction pre generalizing pre' with
  | nil =>
    cases pre' with
    | nil => exact List.cons_eq_cons.mp hc
    | cons a pre' =>
      obtain ⟨-, rfl⟩ := List.cons_eq_cons.mp hc
      refine absurd ?_ (List.nodup_cons.mp hnd).1
      rw [he]
      exact List.mem_map_of_mem (by simp)
  | cons a pre ih =>
    have hnd' := List.nodup_cons.mp hnd
    cases pre' with
    | nil =>
      obtain ⟨rfl, -⟩ := List.cons_eq_cons.mp hc
      refine absurd ?_ hnd'.1
      rw [← he]
      exact List.mem_map_of_mem (by simp)
    | cons a' pre' => exact ih hnd'.2 (List.cons_eq_cons.mp hc).2

theorem spares_body {c pre post : Chain V} {s : Stage V} (hnd : (c.map Stage.this).Nodup)
    (hc : c = pre ++ s :: post) (a : List V) : Spares c f (.body s.this a) ↔
      (Chain.leads f (s :: post) = true → s.body.callsReject a = false) := by
  constructor
  · exact fun h hl => h pre s post hc hl a rfl
  · intro h pre' p post' hc' hl a' he
    obtain ⟨h1, rfl⟩ := Event.body.inj he
    obtain ⟨rfl, rfl⟩ := stage_unique (hc ▸ hnd) (hc.symm.trans hc') h1
    exact h hl

theorem spares_handler (c : Chain V) (f y : Ref) (args : List V) : Spares c f (.handler y args) :=
  fun _ _ _ _ _ _ he => (by cases he)

theorem Spared.append {c : Chain V} {l l' : List (Event V)} :
    Spared c f (l ++ l') ↔ Spared c f l ∧ Spared c f l' := List.forall_mem_append

theorem Logs.of_grows {m : A V Unit} (h : Moves Grows m) : Logs Trail.trace (fun _ _ => True) m := by
  intro t
  obtain ⟨l, hl, -⟩ := h t
  exact ⟨l, hl, trivial⟩

theorem Calls.first {m : A V Unit} {k : Unit → A V Unit} (hm : Logs Trail.trace (Calls x) m)
    (hk : ∀ u, Moves Grows (k u)) : Logs Trail.trace (Calls x) (m >>= k) := by
  refine Logs.seq (P := Calls x) (Q := fun _ _ => True) ?_ ?_ hm (fun u => Logs.of_grows (hk u))
  · exact fun l l' r h _ _ => List.mem_append_left l' (h rfl)
  · exact fun l e h => h

theorem Calls.last {m : A V Unit} {k : Unit → A V Unit} (hm : Moves Grows m)
    (hk : ∀ u, Logs Trail.trace (Calls x) (k u)) : Logs Trail.trace (Calls x) (m >>= k) := by
  refine Logs.seq (P := fun _ _ => True) (Q := Calls x) ?_ ?_ (Logs.of_grows hm) hk
  · exact fun l l' r _ h hr => List.mem_append_right l (h hr)
  · exact fun l e _ hr => (by cases hr)

/-- statements that reject -/
theorem exec_calls {next : List V → A V Unit} (hnext : ∀ vs, Moves Grows (next vs)) {s : Stage V}
    {rest : Chain V} (h : OnlyAt f x (s :: rest)) (hl : Chain.leads f (s :: rest) = true) (g : Ref)
    {acc : Bool} {code : List (Stmt V acc)} (hr : rejects code = true) :
    Logs Trail.trace (Calls x) (Chain.exec next (s :: rest) g code) := by
  induction code with
  | nil => cases hr
  | cons st code ih =>
    cases st with
    | accept ha vs => exact Calls.last (hnext vs) (fun _ => ih hr)
    | add task => exact Calls.last (Moves.modify fun t => .of_eq rfl) (fun _ => ih hr)
    | reject es =>
      refine Calls.first (fun t => ?_) (fun _ => ?_)
      · obtain ⟨t', h1, h2⟩ := h.reject_calls hl (!acc) t
        rw [h1]
        exact ⟨_, h2, fun _ => List.mem_singleton_self _⟩
      · exact Chain.exec_emits rest g (fun _ => trivial) code (fun _ vs _ => hnext vs)

end

/-- a body that rejects -/
theorem run_calls {s : Stage V} {rest : Chain V} (h : OnlyAt f x (s :: rest))
    (hl : Chain.leads f (s :: rest) = true) {args : List V} (hr : s.body.callsReject args = true) :
    Logs Trail.trace (Calls x) (Chain.run (s :: rest) args) := by
  have hexec : ∀ {acc : Bool} {code : List (Stmt V acc)}, rejects code = true →
      Logs Trail.trace (Calls x) (Chain.exec (Chain.run rest) (s :: rest) s.this code) :=
    fun hr => exec_calls (Chain.run_grows rest) h hl s.this hr
  refine Calls.last (Moves.modify fun t => .emit t trivial) (fun _ => ?_)
  cases hb : s.body with
  | accRej code =>
    rw [hb] at hr
    exact hexec hr
  | rej r code =>
    rw [hb] at hr
    refine Calls.first (hexec hr) (fun _ => ?_)
    exact Chain.callbody_moves (fun _ => .of_eq rfl) (fun _ _ _ => .trans) _ _ r _
      (fun _ _ => .of_eq rfl) (fun _ vs => Chain.run_grows rest vs)
  | noFun r code =>
    rw [hb] at hr
    cases hr

section
omit [Movable V]
variable {c : Chain V}

theorem quiet_append (l l' : List (Event V)) (_ : Option Err)
    (h : Spared c f l → Event.handler x [] ∉ l) (h' : Spared c f l' → Event.handler x [] ∉ l')
    (hs : Spared c f (l ++ l')) : Event.handler x [] ∉ l ++ l' :=
  not_mem_append (h (Spared.append.mp hs).1) (h' (Spared.append.mp hs).2)

theorem missed_append (l l' : List (Event V)) (r : Option Err) (h : ¬ Spared c f l → Calls x l none)
    (h' : ¬ Spared c f l' → Calls x l' r) (hs : ¬ Spared c f (l ++ l')) : Calls x (l ++ l') r := by
  intro hr
  rw [Spared.append, not_and_or] at hs
  rcases hs with hs | hs
  · exact List.mem_append_left l' (h hs rfl)
  · exact List.mem_append_right l (h' hs hr)

theorem missed_nil (r : Option Err) : ¬ Spared c f [] → Calls (V := V) x [] r :=
  fun h => absurd (fun e he => absurd he (by simp)) h

theorem missed_one {e : Event V} (he : Spares c f e) (r : Option Err) :
    ¬ Spared c f [e] → Calls x [e] r := by
  intro hs
  refine absurd (fun e' he' => ?_) hs
  rw [List.mem_singleton.mp he']
  exact he

/-- a reject that is not passed on to `f` calls another handler, or none -/
theorem OnlyAt.other {d : Chain V} (h : OnlyAt f x d) (hl : Chain.leads f d = false) :
    ∀ y, Chain.caught d = some y → Event.handler (V := V) x [] ∉ [Event.handler y []] := by
  intro y hy hm
  have h1 : Event.handler (V := V) x [] = .handler y [] := List.mem_singleton.mp hm
  rw [h.caught_iff.mp ((Event.handler.inj h1).1 ▸ hy)] at hl
  cases hl

end

section
variable {c : Chain V} (hnd : (c.map Stage.this).Nodup) (hx : OnlyAt f x c)
include hnd hx

/-- The handler is not called by a run that makes no call of a future that passes a reject on. -/
theorem spared_run {pre d : Chain V} (hc : c = pre ++ d) (args : List V) :
    Logs Trail.trace (fun l _ => Spared c f l → Event.handler x [] ∉ l) (Chain.run d args) := by
  induction d generalizing pre args with
  | nil => exact Logs.pure (by simp) ()
  | cons s rest ih =>
    have hrest : c = (pre ++ [s]) ++ rest := by rw [hc]; simp
    have hxs : OnlyAt f x (s :: rest) := fun s' hs' => hx s' (hc ▸ List.mem_append_right pre hs')
    cases hl : Chain.leads f (s :: rest) with
    | true =>
      refine Chain.stage_logs (by simp) quiet_append (by simp) (fun hr l _ hs => ?_)
        (fun vs => ih hrest vs)
      have h1 := (spares_body hnd hc args).mp (hs _ (List.mem_cons_self ..)) hl
      rw [hr] at h1
      cases h1
    | false =>
      refine Logs.bind quiet_append (Logs.modify (l := [.body s.this args]) (fun t => rfl) (by simp))
        (fun _ => Chain.runBody_logs (by simp) quiet_append (fun vs => ih hrest vs) _ _ args
          (fun _ => ?_))
      exact Chain.reject_logs (by simp) (by simp) (fun y hy _ => hxs.other hl y hy)

/-- A run that returns has called it if it has called such a future on an input it rejects. -/
theorem called_run {pre d : Chain V} (hc : c = pre ++ d) (args : List V) :
    Logs Trail.trace (fun l r => ¬ Spared c f l → Calls x l r) (Chain.run d args) := by
  induction d generalizing pre args with
  | nil => exact Logs.pure (missed_nil none) ()
  | cons s rest ih =>
    have hrest : c = (pre ++ [s]) ++ rest := by rw [hc]; simp
    have hxs : OnlyAt f x (s :: rest) := fun s' hs' => hx s' (hc ▸ List.mem_append_right pre hs')
    by_cases hbad : Chain.leads f (s :: rest) = true ∧ s.body.callsReject args = true
    · exact (run_calls hxs hbad.1 hbad.2).imp (fun l r h _ => h)
    · have hbody : Spares c f (.body s.this args) :=
        (spares_body hnd hc args).mpr fun hl => by simpa [hl] using hbad
      refine Logs.bind missed_append
        (Logs.modify (l := [.body s.this args]) (fun t => rfl) (missed_one hbody none))
        (fun _ => Chain.runBody_logs (missed_nil none) missed_append (fun vs => ih hrest vs) _ _ args
          (fun _ => ?_))
      exact Chain.reject_logs (missed_nil none) (missed_nil _)
        (fun y _ => missed_one (spares_handler c f y []) none)

theorem compares_run {pre d : Chain V} (hc : c = pre ++ d) (args : List V) :
    Compares (Spared c f) x (Chain.run d args) (Chain.run (d.map (Stage.lose f)) args) := by
  have hxd : OnlyAt f x d := fun s hs => hx s (hc ▸ List.mem_append_right pre hs)
  exact ⟨lose_run hxd args, lost_run hxd args, spared_run hnd hx hc args, called_run hnd hx hc args⟩

/-- a closure over the functions of a future of the chain -/
theorem compares_exec {pre post : Chain V} {s : Stage V} (hc : c = pre ++ s :: post) {acc : Bool}
    (code : List (Stmt V acc)) :
    Compares (fun l => (rejects code = true → Chain.leads f (s :: post) = false) ∧ Spared c f l) x
      (Chain.exec (Chain.run post) (s :: post) s.this code)
      (Chain.exec (Chain.run (post.map (Stage.lose f))) ((s :: post).map (Stage.lose f)) s.this
        code) := by
  have hpost : c = (pre ++ [s]) ++ post := by rw [hc]; simp
  have hxs : OnlyAt f x (s :: post) := fun s' hs' => hx s' (hc ▸ List.mem_append_right pre hs')
  have hrun : ∀ vs, Compares (Spared c f) x (Chain.run post vs)
      (Chain.run (post.map (Stage.lose f)) vs) := fun vs => compares_run hnd hx hpost vs
  have hgrows : Moves Grows (Chain.exec (Chain.run post) (s :: post) s.this code) :=
    Chain.exec_emits post s.this (fun _ => trivial) code (fun _ vs _ => Chain.run_grows post vs)
  refine ⟨?_, ?_, ?_, ?_⟩
  · exact Chain.exec_simUnless (fun t t' hg => hg.mem) post (post.map (Stage.lose f)) s.this
      (fun vs => (hrun vs).same) (fun vs => Chain.run_grows post vs) (fun t t' k h => h.add k)
      (lose_reject hxs _) code
  · exact Chain.exec_logs (by simp) (fun _ _ _ => not_mem_append) (fun vs => (hrun vs).never) s.this
      (fun _ => lost_reject hxs _)
  · by_cases hcode : rejects code = true → Chain.leads f (s :: post) = false
    · have hspared : Logs Trail.trace (fun l _ => Spared c f l → Event.handler x [] ∉ l)
          (Chain.exec (Chain.run post) (s :: post) s.this code) :=
        Chain.exec_logs (by simp) quiet_append (fun vs => (hrun vs).spared) s.this (fun hr =>
          Chain.reject_logs (by simp) (by simp) (fun y hy _ => hxs.other (hcode hr) y hy) _)
      exact hspared.imp fun l r h hs => h hs.2
    · exact (Logs.of_grows hgrows).imp fun l r _ hs => absurd hs.1 hcode
  · by_cases hcode : rejects code = true → Chain.leads f (s :: post) = false
    · have hcalled : Logs Trail.trace (fun l r => ¬ Spared c f l → Calls x l r)
          (Chain.exec (Chain.run post) (s :: post) s.this code) :=
        Chain.exec_logs (missed_nil none) missed_append (fun vs => (hrun vs).called) s.this
          (fun _ => Chain.reject_logs (missed_nil none) (missed_nil _)
            (fun y _ => missed_one (spares_handler c f y []) none) _)
      exact hcalled.imp fun l r h hs => h fun hsp => hs ⟨hcode, hsp⟩
    · rw [Classical.not_imp, Bool.not_eq_false] at hcode
      exact (exec_calls (Chain.run_grows post) hxs hcode.2 s.this hcode.1).imp fun l r h _ => h

end

end

/-! ## the two constructions -/

/-- The same calls, on each future in the same order, but for `f`: `l` attaches the handler `x` after
the continuation `n` with the body `b`, and `l'` before it.  The latest call is listed first. -/
structure Reordered (f : Name) (b : Body V) (n x : Name) (l l' : List (Call V)) : Prop where
  perm : l.Perm l'
  others : ∀ g, g ≠ f → callsOn l' g = callsOn l g
  after : callsOn l f = [.except f x, .then_ f b n]
  before : callsOn l' f = [.then_ f b n, .except f x]

section
variable {f n x : Name} {b : Body V} {l l' : List (Call V)} (hr : Reordered f b n x l l')
include hr

theorem Reordered.nextAt_eq (g : Name) : nextAt l' g = nextAt l g := by
  rw [← nextAt_callsOn l' g, ← nextAt_callsOn l g]
  by_cases hg : g = f
  · subst hg
    rw [hr.after, hr.before]
    rfl
  · rw [hr.others g hg]

variable {cs : List (List Name)} (hm : Made l cs)
include hm

theorem Reordered.stageAt_eq (g : Name) : stageAt l' g = (stageAt l g).map (Stage.lose f) := by
  have hb : bodyAt l' g = bodyAt l g := by
    unfold bodyAt
    rw [kindAt_perm hm.names_nodup hr.perm]
  have hslot := slotAt_callsOn l' g
  have hslot' := slotAt_callsOn l g
  have hh := handlerAt_callsOn l' g
  have hh' := handlerAt_callsOn l g
  unfold stageAt
  rw [hb, ← hslot, ← hslot', ← hh, ← hh', Option.map_map]
  congr 1
  funext b'
  by_cases hg : g = f
  · subst hg
    rw [hr.after, hr.before]
    simp [slotAt, handlerAt, Call.on, Stage.lose]
  · rw [hr.others g hg]
    exact (Stage.lose_other hg).symm

theorem Reordered.named_eq (ns : List Name) : named l' ns = (named l ns).map (Stage.lose f) := by
  have hfun : stageAt l' = fun g => (stageAt l g).map (Stage.lose f) :=
    funext fun g => hr.stageAt_eq hm g
  unfold named
  rw [List.map_filterMap, hfun]

/-- attached last, the handler is in the slot of `f` -/
theorem Reordered.onlyAt (ns : List Name) : OnlyAt f x (named l ns) := by
  intro s hs
  rw [(mem_named hs).2.1]
  have hslot : slotAt l f = .handler x := by
    rw [← slotAt_callsOn, hr.after]
    simp [slotAt, Call.on]
  constructor
  · intro h
    have h1 : Call.except s.this x = Call.except f x :=
      List.inj_on_of_nodup_map hm.names_nodup (slotAt_mem h) (slotAt_mem hslot) rfl
    exact (Call.except.inj h1).1
  · intro h
    rw [h]
    exact hslot

theorem Reordered.chain_mem {cs' : List (List Name)} (hm' : Made l' cs') {hd : Name}
    {ns : List Name} (hc : hd :: ns ∈ cs) : hd :: ns ∈ cs' :=
  hm.same_chain hm' (kindAt_perm hm.names_nodup hr.perm hd) hr.nextAt_eq hc

end

variable [Movable V]

/-- What the order has to do with the calls of `r`, in the order `l`, and of `r'`, in the order `l'`:
they are the same exactly if no reject is passed on to the handler, which is so if `C`, and in a run
that returns only then. -/
structure Agree (l l' : List (Call V)) (x : Name) (C : List (Event V) → Prop) (r r' : Seen V) :
    Prop where
  same_iff : byName l r.calls = byName l' r'.calls ↔ Event.handler x [] ∉ byName l r.calls
  of_spared : C (byName l r.calls) → Event.handler x [] ∉ byName l r.calls
  spared : r.result = .ok () → Event.handler x [] ∉ byName l r.calls → C (byName l r.calls)

omit [Movable V] in
theorem Compares.agree {l l' : List (Call V)} {x : Name} {C : List (Event V) → Prop}
    {m m' : A V Unit} (h : Compares C x m m') {τ : Trail V} (hτ : τ.trace = []) {r r' : Seen V}
    (h1 : byName l r.calls = (τ.seen m).calls) (h2 : r.result = (τ.seen m).result)
    (h3 : byName l' r'.calls = (τ.seen m').calls) : Agree l l' x C r r' := by
  obtain ⟨h4, h5, h6⟩ := h.seen hτ
  refine ⟨?_, ?_, ?_⟩
  · rw [h1, h3]
    exact h4
  · rw [h1]
    exact h5
  · rw [h1, h2]
    exact h6

/-- **A handler before or after the continuation.**  Two constructions differ in the order of `then`
and `except` on `f`.  They have the same chains, and from the same state a run of the head, or a
queued closure, makes the same calls exactly when no reject is passed on to `f`.  When no body hands
on more than one value, the inputs of each future are what the bodies before it hand on. -/
theorem commute_iff {f n x : Name} {b : Body V} {l l' : List (Call V)}
    (hr : Reordered f b n x l l') {cs cs' : List (List Name)} (hm : Made l cs) (hm' : Made l' cs')
    {hd : Name} {ns : List Name} (hc : hd :: ns ∈ cs) {τ t t' : Trail V} (ht : Stands l τ t)
    (ht' : Stands l' τ t') :
    hd :: ns ∈ cs' ∧
    (∀ args, Agree l l' x (Spared (named l ns) f)
        (seen (t.world (build l)) (run (place l hd) args))
        (seen (t'.world (build l')) (run (place l' hd) args))) ∧
    (∀ pre s post, named l ns = pre ++ s :: post → ∀ (acc : Bool) (code : List (Stmt V acc)),
      Agree l l' x (fun calls => (rejects code = true → Chain.leads f (s :: post) = false) ∧
          Spared (named l ns) f calls)
        (seen (t.world (build l)) (fire ⟨acc, place l s.this, code⟩))
        (seen (t'.world (build l')) (fire ⟨acc, place l' s.this, code⟩))) ∧
    ∀ pre s post, named l ns = pre ++ s :: post → (∀ p ∈ pre, p.body.HandsOnce) →
      (∀ p ∈ pre, τ.errored p.this = false) → ∀ k, kindAt l hd = some k → ∀ args,
      entered s.this (byName l (seen (t.world (build l)) (run (place l hd) args)).calls)
        = feeds pre (k.handsOn (τ.value hd) args) := by
  have hc' := hr.chain_mem hm hm' hc
  have hnd := hm.named_nodup hc
  have hx := hr.onlyAt hm ns
  obtain ⟨k, hk, hroot⟩ := hm.head_kind hc
  have hk' : kindAt l' hd = some k := (kindAt_perm hm.names_nodup hr.perm hd).trans hk
  have hself : named l ns = [] ++ named l ns := rfl
  refine ⟨hc', fun args => ?_, fun pre s post hs acc code => ?_, ?_⟩
  · obtain ⟨h1, h2⟩ := named_run hm hc hk ht args
    obtain ⟨h3, -⟩ := named_run hm' hc' hk' ht' args
    obtain ⟨τ', hA, hstart⟩ := Chain.start_seen hroot hd args τ
    rw [hr.named_eq hm, hstart] at h3
    rw [hstart] at h1 h2
    exact (compares_run hnd hx hself _).agree (hA.trace.trans ht.trace) h1 h2 h3
  · obtain ⟨h1, h2⟩ := named_fire hm hc hs code ht
    have hs' : named l' ns = pre.map (Stage.lose f) ++ s.lose f :: post.map (Stage.lose f) := by
      rw [hr.named_eq hm, hs, List.map_append, List.map_cons]
    obtain ⟨h3, -⟩ := named_fire hm' hc' hs' code ht'
    rw [Stage.lose_this] at h3
    exact (compares_exec hnd hx hs code).agree ht.trace h1 h2 h3
  · intro pre s post hs once he k₀ hk₀ args
    obtain rfl : k = k₀ := Option.some.inj (hk.symm.trans hk₀)
    obtain ⟨τ', hA, hstart⟩ := Chain.start_seen hroot hd args τ
    rw [(named_run hm hc hk ht args).1, hstart, hs]
    rw [hs] at hnd
    obtain ⟨calls, h1, h2⟩ := Chain.run_enters (hs ▸ hm.named_shaped hc) hnd once
      (k.handsOn (τ.value hd) args) (t := τ') (fun p hp => (congrFun hA.errored _).trans (he p hp))
    rw [Trail.seen_calls h1]
    exact h2

end

/-- `f->then(b3)` and then `f->except(h)`, where `f` is a future with the body `b` after a bound one -/
def catchAfter (b : Body Nat) : List (Call Nat) :=
  [.except 1 10, .then_ 1 (.noFun .void fun _ => []) 2, .then_ 0 b 1, .bound 0 [2, 5]]

/-- `f->except(h)` and then `f->then(b3)` -/
def catchBefore (b : Body Nat) : List (Call Nat) :=
  [.then_ 1 (.noFun .void fun _ => []) 2, .except 1 10, .then_ 0 b 1, .bound 0 [2, 5]]

theorem catch_reordered (b : Body Nat) :
    Reordered 1 (.noFun .void fun _ => []) 2 10 (catchAfter b) (catchBefore b) := by
  refine ⟨List.Perm.swap .., fun g hg => ?_, rfl, rfl⟩
  have hne : ¬ (1 = g) := fun e => hg e.symm
  simp [callsOn, catchAfter, catchBefore, Call.on, hne]

theorem catch_made (b : Body Nat) :
    Made (catchAfter b) [[0, 1, 2]] ∧ Made (catchBefore b) [[0, 1, 2]] := by
  have h0 : Made [.bound 0 [2, 5]] [[0]] := .bound [2, 5] .empty (by simp)
  have h1 : Made [.then_ 0 b 1, .bound 0 [2, 5]] [[0, 1]] :=
    @Made.then_ Nat _ [] [] [] 0 1 b h0 (by simp [Call.name])
  constructor
  · have h2 := @Made.then_ Nat _ [] [] [0] 1 2 (.noFun .void fun _ => []) h1 (by simp [Call.name])
    exact .except h2 (by simp) (by simp [Call.name])
  · have h2 : Made _ _ := .except (f := 1) (x := 10) h1 (by simp) (by simp [Call.name])
    exact @Made.then_ Nat _ [] [] [0] 1 2 _ h2 (by simp [Call.name])

/-- As long as nothing rejects, the order does not matter. -/
theorem commute_accepting :
    byName (catchAfter body2) (firstRun (build (catchAfter body2)) (place (catchAfter body2) 0) []).calls
      = byName (catchBefore body2)
          (firstRun (build (catchBefore body2)) (place (catchBefore body2) 0) []).calls := by
  obtain ⟨h1, h2⟩ := catch_made body2
  have hr := catch_reordered body2
  have hvalue := valueAt_perm h1.names_nodup hr.perm
  have h := commute_iff hr h1 h2 (List.mem_cons_self ..) h1.stands (hvalue ▸ h2.stands)
  have hcalls : byName (catchAfter body2)
      (seen ((World.init (build (catchAfter body2))).trail.world (build (catchAfter body2)))
        (run (place (catchAfter body2) 0) [])).calls = [.body 1 [2, 5], .body 2 [7]] := rfl
  refine (h.2.1 []).same_iff.mpr ?_
  rw [hcalls]
  simp

/-- A handler that was attached first does not see the reject. -/
theorem catch_before_lost :
    Reordered 1 (.noFun .void fun _ => []) 2 10 (catchAfter body2') (catchBefore body2') ∧
    Made (catchAfter body2') [[0, 1, 2]] ∧ Made (catchBefore body2') [[0, 1, 2]] ∧
    byName (catchAfter body2') (firstRun (build (catchAfter body2')) 0 []).calls
      = [.body 1 [2, 5], .handler 10 []] ∧
    byName (catchBefore body2') (firstRun (build (catchBefore body2')) 0 []).calls
      = [.body 1 [2, 5]] :=
  ⟨catch_reordered body2', (catch_made body2').1, (catch_made body2').2, rfl, rfl⟩

end Future
end Pharoah
