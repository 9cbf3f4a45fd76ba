import Pharoah.Future.Errored

/-!
# Futures: running a chain again

Two things a run leaves behind reach the next one: a bound head has moved its values out, and a
`REJ` body that rejected has set `errored`.

* `runs hd inputs w`    what each of the runs of `hd` on `inputs` shows, one after the other;
* `Suppresses h hd fs a b`   a run on `a` makes a value-returning body set `errored` whose future
                             hands on a value in a run on `b`, each on a fresh chain;
* `runs_independent_iff`     **all runs make the calls of a fresh chain exactly when the values of
                             a bound head survive a move (or are not needed twice), and no input
                             suppresses a later one**.
-/

namespace Pharoah
namespace Future

open Prog

section
variable {V : Type}

/-- the body is of a style that is given a reject function and returns values -/
def Body.keeps (b : Body V) : Bool := b.hasRej && !b.isVoid

theorem Body.keeps_iff {b : Body V} :
    b.keeps = true ↔ ∃ (r : Ret) (code : List V → List (Stmt V false) × List V),
      b = .rej r code ∧ r ≠ .void := by
  cases b with
  | accRej code => simp [Body.keeps, Body.hasRej]
  | rej r code => cases r <;> simp [Body.keeps, Body.hasRej, Body.isVoid]
  | noFun r code => simp [Body.keeps, Body.hasRej]

/-! ## a run of a chain in which some futures have `errored` -/

/-- `t'` started with the calls `tr`, the queue `qu` and `errored` set on futures in `S` -/
structure Used (c : Chain V) (S : Ref → Prop) (tr : List (Event V)) (qu : List (Task V))
    (t t' : Trail V) : Prop where
  trace : t'.trace = tr ++ t.trace
  dyn_tq : t'.dyn_tq = qu ++ t.dyn_tq
  mono : ∀ u, t.errored u = true → t'.errored u = true
  only : ∀ s ∈ c, t'.errored s.this = true →
    s.body.hasRej = true ∧ (t.errored s.this = true ∨ S s.this)

/-- a future whose predecessor is in `S` has been run -/
def Blocked (c : Chain V) (S : Ref → Prop) (t : Trail V) : Prop :=
  ∃ pre s q post, c = pre ++ s :: q :: post ∧ s.body.keeps = true ∧ S s.this ∧
    ∃ args, Event.body q.this args ∈ t.trace

variable {c : Chain V} {S : Ref → Prop} {tr : List (Event V)} {qu : List (Task V)}

theorem Blocked.grows {t t' : Trail V} (h : Grows t t') (hb : Blocked c S t) : Blocked c S t' := by
  obtain ⟨pre, s, q, post, hc, hk, hS, args, ha⟩ := hb
  exact ⟨pre, s, q, post, hc, hk, hS, args, h.mem ha⟩

theorem Used.alike {t t₁ t' t₁' : Trail V} (h : Used c S tr qu t t') {u : Ref}
    (ha : Alike u t t₁) (ha' : Alike u t' t₁') : Used c S tr qu t₁ t₁' := by
  refine ⟨?_, ?_, fun u => ?_, fun s hs => ?_⟩
  · rw [ha.trace, ha'.trace, h.trace]
  · rw [ha.dyn_tq, ha'.dyn_tq, h.dyn_tq]
  · rw [ha.errored, ha'.errored]
    exact h.mono u
  · rw [ha.errored, ha'.errored]
    exact h.only s hs

theorem Used.add {t t' : Trail V} (h : Used c S tr qu t t') (k : Task V) :
    Used c S tr qu (t.add k) (t'.add k) := by
  refine ⟨h.trace, ?_, h.mono, h.only⟩
  show t'.dyn_tq ++ [k] = qu ++ (t.dyn_tq ++ [k])
  rw [h.dyn_tq, List.append_assoc]

theorem Used.emit {t t' : Trail V} (h : Used c S tr qu t t') (e : Event V) :
    Used c S tr qu (t.emit e) (t'.emit e) := by
  refine ⟨?_, h.dyn_tq, h.mono, h.only⟩
  show t'.trace ++ [e] = tr ++ (t.trace ++ [e])
  rw [h.trace, List.append_assoc]

theorem Used.setErrored {t t' : Trail V} (h : Used c S tr qu t t')
    (hnd : (c.map Stage.this).Nodup) {s : Stage V} (hs : s ∈ c) (hr : s.body.hasRej = true) :
    Used c S tr qu (t.setErrored s.this) (t'.setErrored s.this) := by
  refine ⟨h.trace, h.dyn_tq, fun u hu => ?_, fun s' hs' he => ?_⟩
  · show Function.update t'.errored s.this true u = true
    have hu' : Function.update t.errored s.this true u = true := hu
    by_cases e : u = s.this
    · subst e; simp
    · rw [Function.update_of_ne e] at hu' ⊢
      exact h.mono u hu'
  · have he' : Function.update t'.errored s.this true s'.this = true := he
    show _ ∧ (Function.update t.errored s.this true s'.this = true ∨ _)
    by_cases e : s'.this = s.this
    · obtain rfl := List.inj_on_of_nodup_map hnd hs' hs e
      exact ⟨hr, .inl (Function.update_self ..)⟩
    · rw [Function.update_of_ne e] at he' ⊢
      exact h.only s' hs' he'

variable [Movable V]

/-- From the same input, the used chain does what a fresh one does, unless the fresh one gets past
a future that has `errored`. -/
theorem used_run (hnd : (c.map Stage.this).Nodup) {pre d : Chain V} (hc : c = pre ++ d)
    (args : List V) :
    SimUnless (Blocked c S) (Used c S tr qu) (Chain.run d args) (Chain.run d args) := by
  induction d generalizing pre args with
  | nil => exact (Sim.pure ()).unless
  | cons s rest ih =>
    have hs : s ∈ c := by simp [hc]
    have hrest : c = (pre ++ [s]) ++ rest := by simp [hc]
    refine Chain.stage_simUnless (fun t t' => Blocked.grows)
      (fun _ _ _ _ _ h ha ha' => h.alike ha ha') rfl rfl rfl (fun vs => ih hrest vs)
      (fun b hb => (Chain.reject_sim rfl rfl rfl (fun h t t' hu => hu.setErrored hnd hs (hb h))
        (fun t t' x h => h.emit _)).unless)
      (fun t t' k h => h.add k) (fun t t' h => h.mono _) (fun hl hv t t' h he he' vs => ?_) args
      (fun t t' h => h.emit _)
    obtain ⟨hr, hor⟩ := h.only s hs he'
    have hS : S s.this := hor.resolve_left (by simp [he])
    cases rest with
    | nil => cases hl
    | cons q post =>
      refine ⟨pre, s, q, post, hc, by simp [Body.keeps, hr, hv], hS, vs, ?_⟩
      exact (Chain.run_head q post vs t).mem (List.mem_append_right _ (List.mem_singleton.mpr rfl))

/-! ## what a run leaves behind -/

/-- from `t` to `t'`, `errored` is only set on futures whose body was called and rejected -/
def MarkedBy (c : Chain V) (t t' : Trail V) : Prop :=
  ∃ l, t'.trace = t.trace ++ l ∧ ∀ s ∈ c, t'.errored s.this = true →
    t.errored s.this = true ∨ ∃ ins ∈ entered s.this l, s.body.rejectsOn ins = true

omit [Movable V] in
theorem MarkedBy.of_grows {t t' : Trail V} (h : Grows t t') (he : t'.errored = t.errored) :
    MarkedBy c t t' := by
  obtain ⟨l, hl, -⟩ := h
  exact ⟨l, hl, fun s _ hs => .inl (by rwa [he] at hs)⟩

omit [Movable V] in
theorem MarkedBy.trans {t₁ t₂ t₃ : Trail V} (h : MarkedBy c t₁ t₂) (h' : MarkedBy c t₂ t₃) :
    MarkedBy c t₁ t₃ := by
  obtain ⟨l, hl, hm⟩ := h
  obtain ⟨l', hl', hm'⟩ := h'
  refine ⟨l ++ l', by rw [hl', hl, List.append_assoc], fun s hs he => ?_⟩
  rcases hm' s hs he with he' | ⟨ins, hin, hr⟩
  · rcases hm s hs he' with he'' | ⟨ins, hin, hr⟩
    · exact .inl he''
    · exact .inr ⟨ins, by simp [hin], hr⟩
  · exact .inr ⟨ins, by simp [hin], hr⟩

theorem Chain.run_marked (hnd : (c.map Stage.this).Nodup) {pre d : Chain V} (hc : c = pre ++ d)
    (args : List V) : Moves (MarkedBy c) (Chain.run d args) := by
  have hr : ∀ t : Trail V, MarkedBy c t t := fun t => .of_grows (.of_eq rfl) rfl
  have ht : ∀ t₁ t₂ t₃ : Trail V, MarkedBy c t₁ t₂ → MarkedBy c t₂ t₃ → MarkedBy c t₁ t₃ :=
    fun _ _ _ => .trans
  induction d generalizing pre args with
  | nil => exact Moves.pure hr ()
  | cons s rest ih =>
    have hs : s ∈ c := by simp [hc]
    have ih' : ∀ vs, Moves (MarkedBy c) (Chain.run rest vs) := fun vs =>
      ih (show c = (pre ++ [s]) ++ rest by simp [hc]) vs
    have hbody : ∀ t : Trail V, MarkedBy c t (t.emit (.body s.this args)) := fun t =>
      .of_grows (.emit t trivial) rfl
    cases hb : s.body with
    | accRej code =>
      intro t
      refine (hbody t).trans ?_
      rw [Chain.run, bind_ok (modify_apply _ t), hb]
      exact Chain.exec_moves hr ht rest s.this (by simp) (fun t _ => .of_grows (.emit t trivial) rfl)
        (fun _ _ => .of_grows (.of_eq rfl) rfl) _ (fun _ vs _ => ih' vs) _
    | rej r code =>
      intro t
      obtain ⟨⟨l, hl, -⟩, h2, h3⟩ := Chain.exec_rejects (P := fun _ => True) (fun _ => trivial)
        (Chain.run rest) (s := s) rest (code args).1 (t.emit (.body s.this args))
      have h1 : MarkedBy c t (final (Chain.exec (Chain.run rest) (s :: rest) s.this (code args).1
          (t.emit (.body s.this args)))) := by
        refine ⟨.body s.this args :: l, by rw [hl]; simp [Trail.emit], fun s' hs' he => ?_⟩
        by_cases e : s'.this = s.this
        · obtain rfl := List.inj_on_of_nodup_map hnd hs' hs e
          rw [h2, Bool.or_eq_true] at he
          rcases he with he | he
          · exact .inl he
          · exact .inr ⟨args, by simp, by simpa [Body.rejectsOn, hb] using he⟩
        · rw [h3 _ e] at he
          exact .inl he
      have hret : ∀ vs, Moves (MarkedBy c)
          (Chain.callbody (Chain.run rest) rest.isEmpty s.this r vs) := fun vs =>
        Chain.callbody_moves hr ht _ _ r vs (fun _ _ => .of_grows (.of_eq rfl) rfl) (fun _ => ih')
      rw [Chain.run, bind_ok (modify_apply _ t), hb, Chain.runBody]
      cases hy : Chain.exec (Chain.run rest) (s :: rest) s.this (code args).1
          (t.emit (.body s.this args)) with
      | ok u t₁ =>
        rw [hy] at h1
        rw [bind_ok hy]
        exact h1.trans (hret _ t₁)
      | error e t₁ =>
        rw [hy] at h1
        rw [bind_error hy]
        exact h1
    | noFun r code =>
      intro t
      refine (hbody t).trans ?_
      rw [Chain.run, bind_ok (modify_apply _ t), hb]
      exact Chain.callbody_moves hr ht _ _ r _ (fun _ _ => .of_grows (.of_eq rfl) rfl)
        (fun _ => ih') _

/-- the value of a future off the chain -/
theorem Chain.run_value {hd : Ref} (hhd : hd ∉ c.map Stage.this) (args : List V) :
    Moves (fun t t' : Trail V => t'.value hd = t.value hd) (Chain.run c args) := by
  have hr : ∀ t : Trail V, t.value hd = t.value hd := fun _ => rfl
  induction c generalizing args with
  | nil => exact Moves.pure (T := fun t t' : Trail V => t'.value hd = t.value hd) hr ()
  | cons s rest ih =>
    rw [List.map_cons, List.mem_cons, not_or] at hhd
    exact Chain.stage_moves (T := fun t t' : Trail V => t'.value hd = t.value hd) hr
      (fun _ _ _ a b => b.trans a) args (fun _ => rfl) (fun t vs => Function.update_of_ne hhd.1 ..)
      (fun _ _ => rfl) (fun _ _ => rfl) (fun _ => rfl) (fun _ => ih hhd.2)

/-- a bound head with a future after it moves its values out -/
theorem Chain.start_value {hd : Ref} {s : Stage V} {rest : Chain V}
    (hhd : hd ∉ (s :: rest).map Stage.this) (args : List V) (t : Trail V) :
    (final (Chain.start .bound hd (s :: rest) args t)).value hd
      = (t.value hd).map Movable.movedFrom := by
  have h1 := Chain.run_value hhd (t.value hd) (t.setValue hd ((t.value hd).map Movable.movedFrom))
  exact h1.trans (Function.update_self ..)

/-! ## the runs of a head -/

/-- What the runs of `hd` show; the caller goes on after a throw. -/
def runs (hd : Ref) : List (List V) → World V → List (Seen V)
  | [], _ => []
  | args :: more, w => seen w (run hd args) :: runs hd more (final (run hd args w))

/-- a fresh run on `args` sets `errored` of `s` -/
def Marks (h : Heap V) (hd : Ref) (args : List V) (s : Stage V) : Prop :=
  ∃ ins ∈ entered s.this (firstRun h hd args).calls, s.body.rejectsOn ins = true

def Suppresses (h : Heap V) (hd : Ref) (fs : List Ref) (a b : List V) : Prop :=
  ∃ pre s q post, chain h fs = pre ++ s :: q :: post ∧ s.body.isVoid = false ∧ Marks h hd a s ∧
    entered q.this (firstRun h hd b).calls ≠ []

/-- the values of a bound head survive a move, or are not needed twice -/
def Kept (h : Heap V) (hd : Ref) (fs : List Ref) (n : Nat) : Prop :=
  ∀ F, h[hd]? = some F → F.kind = .bound → fs ≠ [] → 2 ≤ n →
    F.value.map Movable.movedFrom = F.value

section
variable {h : Heap V} {cs : List (List Ref)} (hb : Built Anywhere h cs) {hd : Ref} {fs : List Ref}
  (hc : hd :: fs ∈ cs) {F : Object V} (hF : h[hd]? = some F)
include hb hc hF

/-- The state between two runs: what the runs on `done` have left behind. -/
structure Between (h : Heap V) (hd : Ref) (fs : List Ref) (F : Object V) (done : List (List V))
    (t : Trail V) : Prop where
  errored : ∀ s ∈ chain h fs, t.errored s.this = true →
    s.body.hasRej = true ∧ ∃ a ∈ done, Marks h hd a s
  value : F.kind = .bound → t.value hd = F.value

/-- one more run that no earlier one suppresses -/
theorem Between.run {done : List (List V)} {t : Trail V} (hbt : Between h hd fs F done t)
    {args : List V} (hno : ∀ a ∈ done, ¬ Suppresses h hd fs a args) :
    seen (t.world h) (run hd args) = firstRun h hd args ∧
      ∃ t', final (run hd args (t.world h)) = t'.world h ∧
        ((F.kind = .bound → fs ≠ [] → F.value.map Movable.movedFrom = F.value) →
          Between h hd fs F (done ++ [args]) t') := by
  have hk := hb.head_kind hc hF
  have hnd := List.nodup_cons.mp (hb.nodup hc)
  have hthis := hb.this hc
  have hnd' : ((chain h fs).map Stage.this).Nodup := by
    rw [hthis]
    exact hnd.2
  have hhd : hd ∉ (chain h fs).map Stage.this := by
    rw [hthis]
    exact hnd.1
  obtain ⟨hseen, hfin⟩ := seen_run hb hc hF args t
  obtain ⟨t₁, h1, h2, h3, h4, -⟩ := Chain.start_run hF hk (chain h fs) args hbt.value
  obtain ⟨t₀, h5, h6, h7, h8⟩ := seen_first_run hb hc args
  have hcalls : (firstRun h hd args).calls
      = (final (Chain.run (chain h fs) (delivered h hd args) t₀)).trace := by
    rw [h8, Trail.seen_calls_start h6]
  have hused : Used (chain h fs) (fun u => ∃ a ∈ done, ∃ s ∈ chain h fs, s.this = u ∧ Marks h hd a s)
      t₁.trace t₁.dyn_tq t₀ t₁ := by
    refine ⟨by rw [h6, List.append_nil], by rw [h7, List.append_nil], fun u hu => ?_, ?_⟩
    · rw [h5] at hu
      cases hu
    · intro s hs he
      rw [h2] at he
      obtain ⟨hr, a, ha, hm⟩ := hbt.errored s hs he
      exact ⟨hr, .inr ⟨a, ha, s, hs, rfl, hm⟩⟩
  have hsim := @used_run V (chain h fs) _ _ _ _ hnd' [] (chain h fs) rfl (delivered h hd args) t₀ t₁
    hused (by
    rintro ⟨pre, s, q, post, he, hkeep, ⟨a, ha, s', hs', hthis', hm⟩, ins, hin⟩
    have hs : s ∈ chain h fs := by simp [he]
    obtain rfl := List.inj_on_of_nodup_map hnd' hs' hs hthis'
    refine hno a ha ⟨pre, s', q, post, he, ?_, hm, ?_⟩
    · obtain ⟨r, code, hbody, hr⟩ := Body.keeps_iff.mp hkeep
      rw [hbody]
      cases r <;> first | rfl | exact absurd rfl hr
    · rw [hcalls]
      exact List.ne_nil_of_mem (mem_entered.mpr hin))
  have hend := hsim.final
  refine ⟨?_, _, hfin, fun hmv => ⟨fun s hs he => ?_, fun hkb => ?_⟩⟩
  · rw [hseen, h8]
    unfold Trail.seen
    rw [h1, ← outcome_eq hsim, hend.trace, hend.dyn_tq, h3, h4, h6, h7]
    simp
  · rw [h1] at he
    obtain ⟨hr, hor⟩ := hend.only s hs he
    refine ⟨hr, ?_⟩
    rcases hor with he | ⟨a, ha, s', hs', hthis', hm⟩
    · obtain ⟨l, hl, hm⟩ := @Chain.run_marked V (chain h fs) _ hnd' [] (chain h fs) rfl
        (delivered h hd args) t₀
      rcases hm s hs he with he | ⟨ins, hin, hrj⟩
      · rw [h5] at he
        cases he
      · refine ⟨args, by simp, ins, ?_, hrj⟩
        rw [hcalls, hl, h6]
        exact hin
    · obtain rfl := List.inj_on_of_nodup_map hnd' hs' hs hthis'
      exact ⟨a, by simp [ha], hm⟩
  · rw [hkb]
    cases hch : chain h fs with
    | nil => exact hbt.value hkb
    | cons s rest =>
      rw [hch] at hhd
      rw [Chain.start_value hhd, hbt.value hkb]
      refine hmv hkb (fun e => ?_)
      rw [hch, e] at hthis
      cases hthis

/-- without moves that matter and without suppression every run is a fresh one -/
theorem Between.runs {inputs done : List (List V)} {t : Trail V} (hbt : Between h hd fs F done t)
    (hmv : F.kind = .bound → fs ≠ [] → 2 ≤ inputs.length →
      F.value.map Movable.movedFrom = F.value)
    (hdone : ∀ a ∈ done, ∀ b ∈ inputs, ¬ Suppresses h hd fs a b)
    (hno : inputs.Pairwise fun a b => ¬ Suppresses h hd fs a b) :
    runs hd inputs (t.world h) = inputs.map (firstRun h hd) := by
  induction inputs generalizing done t with
  | nil => rfl
  | cons args more ih =>
    obtain ⟨h1, t', h2, h3⟩ := hbt.run hb hc hF (fun a ha => hdone a ha args (List.mem_cons_self ..))
    rw [Future.runs, List.map_cons, h1, h2]
    congr 1
    cases more with
    | nil => rfl
    | cons b more =>
      have hp := List.pairwise_cons.mp hno
      refine ih (h3 (fun hk hf => hmv hk hf ?_)) (fun hk hf hl => hmv hk hf ?_) (fun a ha b' hb' => ?_) hp.2
      · simp
      · exact Nat.le_trans hl (Nat.le_succ _)
      · rcases List.mem_append.mp ha with ha | ha
        · exact hdone a ha b' (List.mem_cons_of_mem _ hb')
        · obtain rfl := List.mem_singleton.mp ha
          exact hp.1 b' hb'

/-- if every run makes the calls of a fresh chain, nothing was suppressed -/
theorem runs_suppress {inputs : List (List V)} {t : Trail V}
    (hsame : (Future.runs hd inputs (t.world h)).map Seen.calls
      = inputs.map fun args => (firstRun h hd args).calls) :
    inputs.Pairwise (fun a b => ¬ Suppresses h hd fs a b) ∧
    ∀ pre s q post, chain h fs = pre ++ s :: q :: post → s.body.keeps = true →
      t.errored s.this = true → ∀ b ∈ inputs, entered q.this (firstRun h hd b).calls = [] := by
  induction inputs generalizing t with
  | nil => exact ⟨List.Pairwise.nil, fun _ _ _ _ _ _ _ b hb => absurd hb (by simp)⟩
  | cons args more ih =>
    have hk := hb.head_kind hc hF
    have hnd' : ((chain h fs).map Stage.this).Nodup := by
      rw [hb.this hc]
      exact (List.nodup_cons.mp (hb.nodup hc)).2
    obtain ⟨hseen, hfin⟩ := seen_run hb hc hF args t
    rw [Future.runs, List.map_cons, List.map_cons, hseen, hfin] at hsame
    obtain ⟨h1, h2⟩ := List.cons_eq_cons.mp hsame
    obtain ⟨ih1, ih2⟩ := ih h2
    -- a future that rejects in this run, or had done so before, shuts the next one
    have hshut : ∀ pre s q post, chain h fs = pre ++ s :: q :: post → s.body.keeps = true →
        Shuts (fun a => s.body.rejectsOn a = true) s.this q.this t
          (final (Chain.start F.kind hd (chain h fs) args t)) := by
      intro pre s q post he hkeep
      obtain ⟨r, code, hbody, -⟩ := Body.keeps_iff.mp hkeep
      obtain ⟨f, b, y, x⟩ := s
      obtain rfl : b = .rej r code := hbody
      obtain ⟨t₁, vs, e, h3, h4⟩ : ∃ t₁ vs, Chain.start F.kind hd (chain h fs) args t
          = Chain.run (chain h fs) vs t₁ ∧ t₁.errored = t.errored ∧ t₁.trace = t.trace := by
        rcases hk with hk | hk
        · rw [hk, he]
          cases pre with
          | nil => exact ⟨_, _, rfl, rfl, rfl⟩
          | cons a pre => exact ⟨_, _, rfl, rfl, rfl⟩
        · rw [hk]
          exact ⟨t, args, rfl, rfl, rfl⟩
      rw [e, he]
      rw [he] at hnd'
      obtain ⟨l, h5, h6, h7⟩ := shuts_chain hnd' vs t₁
      exact ⟨l, by rw [h5, h4], fun hh => h6 (by rw [h3]; exact hh), h7⟩
    have hcalls : ∀ l, (final (Chain.start F.kind hd (chain h fs) args t)).trace = t.trace ++ l →
        (firstRun h hd args).calls = l := by
      intro l hl
      rw [← h1]
      show List.drop _ _ = l
      rw [hl]
      simp
    refine ⟨List.pairwise_cons.mpr ⟨fun b hb' => ?_, ih1⟩, fun pre s q post he hkeep herr b hb' => ?_⟩
    · rintro ⟨pre, s, q, post, he, hv, ⟨ins, hin, hrj⟩, hne⟩
      have hkeep : s.body.keeps = true := by
        have hrej : s.body.hasRej = true := by
          cases hbody : s.body with
          | accRej code => rw [hbody] at hrj; cases hrj
          | rej r code => rfl
          | noFun r code => rw [hbody] at hrj; cases hrj
        simp [Body.keeps, hrej, hv]
      obtain ⟨l, hl, -, h3⟩ := hshut pre s q post he hkeep
      rw [hcalls l hl] at hin
      obtain ⟨l₁, l₂, hsplit⟩ := List.append_of_mem (mem_entered.mp hin)
      exact hne (ih2 pre s q post he hkeep (h3 l₁ ins l₂ hsplit hrj).1 b hb')
    · obtain ⟨l, hl, h3, -⟩ := hshut pre s q post he hkeep
      obtain ⟨h4, h5⟩ := h3 herr
      rcases List.mem_cons.mp hb' with rfl | hb'
      · rw [hcalls l hl]
        exact List.eq_nil_iff_forall_not_mem.mpr (fun a ha => h5 a (mem_entered.mp ha))
      · exact ih2 pre s q post he hkeep h4 b hb'

/-- a bound head's second run is on what the first one left of its values -/
theorem runs_moved {a b : List V} {more : List (List V)} (hk : F.kind = .bound) (hf : fs ≠ [])
    (hsame : (Future.runs hd (a :: b :: more) (World.init h)).map Seen.calls
      = (a :: b :: more).map fun args => (firstRun h hd args).calls) :
    F.value.map Movable.movedFrom = F.value := by
  have hthis := hb.this hc
  have hhd : hd ∉ (chain h fs).map Stage.this := by
    rw [hthis]
    exact (List.nodup_cons.mp (hb.nodup hc)).1
  obtain ⟨s, rest, hch⟩ := List.exists_cons_of_ne_nil (l := chain h fs) (fun e => hf (by
    rw [e] at hthis
    exact hthis.symm))
  have hw : World.init h = (World.init h).trail.world h := (World.trail_world (World.init h)).symm
  have hval : (World.init h).trail.value hd = F.value := by simp [World.trail, World.init, hF]
  rw [hw] at hsame
  obtain ⟨-, hfin⟩ := seen_run hb hc hF a (World.init h).trail
  rw [hch] at hhd
  have h1 := Chain.start_value hhd a (World.init h).trail
  rw [hk, hch] at hfin
  generalize final (Chain.start .bound hd (s :: rest) a (World.init h).trail) = t at hfin h1
  rw [hval] at h1
  -- the first call of each run shows the values it started from
  have first : ∀ (t : Trail V) (args : List V), ∃ l,
      (seen (t.world h) (Future.run hd args)).calls = .body s.this (t.value hd) :: l := by
    intro t args
    obtain ⟨hseen, -⟩ := seen_run hb hc hF args t
    rw [hseen, hk, hch]
    obtain ⟨l, hl, -⟩ := Chain.run_head s rest (t.value hd)
      (t.setValue hd ((t.value hd).map Movable.movedFrom))
    refine ⟨l, ?_⟩
    show List.drop _ (final (Chain.run (s :: rest) (t.value hd)
      (t.setValue hd ((t.value hd).map Movable.movedFrom)))).trace = _
    rw [hl]
    simp [Trail.emit, Trail.setValue]
  rw [Future.runs, Future.runs, hfin] at hsame
  obtain ⟨-, h2⟩ := List.cons_eq_cons.mp hsame
  obtain ⟨h3, -⟩ := List.cons_eq_cons.mp h2
  obtain ⟨l, hl⟩ := first t b
  obtain ⟨l', hl'⟩ := first (World.init h).trail b
  have h4 : (firstRun h hd b).calls = .body s.this F.value :: l' := by
    rw [← hval, ← hl', ← hw]
    rfl
  obtain ⟨h5, -⟩ := List.cons_eq_cons.mp ((hl.symm.trans h3).trans h4)
  rw [← h1]
  exact (Event.body.inj h5).2

omit hF in
/-- **Runs of one chain.**  However often its head is run, a chain makes in each run the calls a
fresh one makes on the same input exactly when the values of a bound head survive a move (or it
is run once, or nothing follows it), and no input suppresses a later one.  The calls of a run are those
made until `run` returns; closures that it leaves in the queue are not executed in between. -/
theorem runs_independent_iff (inputs : List (List V)) :
    (Future.runs hd inputs (World.init h)).map Seen.calls
        = inputs.map (fun args => (firstRun h hd args).calls) ↔
      Kept h hd fs inputs.length ∧ inputs.Pairwise fun a b => ¬ Suppresses h hd fs a b := by
  obtain ⟨f, F, hf, hF, hk⟩ := hb.wf.head _ hc
  obtain rfl : hd = f := by simpa using hf
  have hw : World.init h = (World.init h).trail.world h := (World.trail_world (World.init h)).symm
  constructor
  · intro hsame
    refine ⟨fun G hG hkG hfs hlen => ?_, ?_⟩
    · rw [hF] at hG
      cases hG
      cases inputs with
      | nil => exact absurd hlen (by simp)
      | cons a inputs =>
        cases inputs with
        | nil => exact absurd hlen (by simp)
        | cons b more => exact runs_moved hb hc hF hkG hfs hsame
    · rw [hw] at hsame
      exact (runs_suppress hb hc hF hsame).1
  · rintro ⟨hkept, hno⟩
    have hbt : Between h hd fs F [] (World.init h).trail := by
      refine ⟨fun s hs he => ?_, fun _ => by simp [World.trail, World.init, hF]⟩
      have h1 : (h[s.this]?).elim false Object.errored = true := he
      cases hs' : h[s.this]? with
      | none => rw [hs'] at h1; cases h1
      | some G =>
        rw [hs'] at h1
        rw [show (some G).elim false Object.errored = G.errored from rfl,
          hb.wf.errored _ G hs'] at h1
        cases h1
    have h1 := hbt.runs hb hc hF (fun hk hfs hl => hkept F hF hk hfs hl)
      (fun a ha => absurd ha (by simp)) hno
    rw [hw, h1, List.map_map]
    rfl

end

end

/-- The chain of `main` may be run again: its bound values are `int`s, and no body rejects. -/
theorem runs_independent_main :
    (runs 1 [[], []] (World.init (mainHeap body2))).map Seen.calls
      = [(firstRun (mainHeap body2) 1 []).calls, (firstRun (mainHeap body2) 1 []).calls] := by
  refine (runs_independent_iff (mainHeap_built body2).anywhere (List.mem_cons_self ..)
    [[], []]).mpr ⟨fun F hF _ _ _ => ?_, ?_⟩
  · cases hF
    rfl
  · have hno : ¬ Suppresses (mainHeap body2) 1 [2, 3, 4, 5] [] [] := by
      rintro ⟨pre, s, q, post, he, hv, ⟨ins, hin, hr⟩, -⟩
      have hs : s ∈ chain (mainHeap body2) [2, 3, 4, 5] := by simp [he]
      rw [mainHeap_chain] at hs
      simp only [List.mem_cons, List.not_mem_nil, or_false] at hs
      rcases hs with rfl | rfl | rfl | rfl <;> cases hr
    simp [hno]

/-- moving a `std::string` leaves the empty one -/
instance : Movable String := ⟨fun _ => ""⟩

/-- an unbound head, a body that rejects the input 0, and one more body -/
def checkHeap : Heap Nat :=
  let f1 := then_ (unbound []) 0 (.rej .single fun args => (if args = [0] then [.reject []] else [], args))
  except (then_ f1 1 (.noFun .single fun args => args)) 1

/-- a bound head with a string, and a body that is given it -/
def greetHeap : Heap String := then_ (bound [] ["hello"]) 0 (.noFun .single fun args => args)

/-- After a rejected input the next one is dropped, and a bound string is delivered once. -/
theorem second_run_differs :
    Built BeforeExcept checkHeap [[0, 1, 2]] ∧
    (runs 0 [[0], [1]] (World.init checkHeap)).map Seen.calls
        = [[.body 1 [0], .handler 3 []], [.body 1 [1]]] ∧
    (firstRun checkHeap 0 [1]).calls = [.body 1 [1], .body 2 [1]] ∧
    Built BeforeExcept greetHeap [[0, 1]] ∧
    (runs 0 [[], []] (World.init greetHeap)).map Seen.calls
        = [[.body 1 ["hello"]], [.body 1 [""]]] ∧
    (firstRun greetHeap 0 []).calls = [.body 1 ["hello"]] := by
  refine ⟨?_, rfl, rfl, ?_, rfl, rfl⟩
  · have h1 := @Built.then_ Nat BeforeExcept _ [] [] [] 0
      (.rej .single fun args => (if args = [0] then [.reject []] else [], args)) (.unbound .empty)
      (by intro F hF; cases hF; rfl)
    have h2 := @Built.then_ Nat BeforeExcept _ [] [] [0] 1 (.noFun .single fun args => args) h1
      (by intro F hF; cases hF; rfl)
    exact h2.except (by simp)
  · exact @Built.then_ String BeforeExcept _ [] [] [] 0 (.noFun .single fun args => args)
      (.bound ["hello"] .empty) (by intro F hF; cases hF; rfl)

end Future
end Pharoah
