import Pharoah.Future.Deferred

/-!
# Futures: several chains and the task queue

The chains of one heap are started, and the queue worked off, in any order:

* `Move`, `perform ms`   the moves `hd->run(args)` and `tq::run_one()`, and a sequence of them;
* `Going`                what holds between two moves: each chain has not begun, waits for a
                         closure in the queue, or is done, and has made its own calls so far;
* `Going.start`, `Going.run_one`   each move keeps it.

`deferred_eq_immediate`: **when the queue is empty each chain has made exactly the calls of its
immediate version, and working off the queue empties it**.
-/

namespace Pharoah
namespace Future

open Prog

inductive Move (V : Type) where
  | start (hd : Ref) (args : List V)
  | run_one

section
variable {V : Type} [Movable V]

def Move.perform : Move V → M V Unit
  | .start hd args => run hd args
  | .run_one => do
    let _ ← Future.run_one
    pure ()

def perform : List (Move V) → M V Unit
  | [] => pure ()
  | m :: ms => do
    m.perform
    perform ms

omit [Movable V]

/-- the heads that are run, and on what -/
def starts (ms : List (Move V)) : List (Ref × List V) :=
  ms.filterMap fun
    | .start hd args => some (hd, args)
    | .run_one => none

/-- the calls about one chain -/
def own (c : Chain V) (calls : List (Event V)) : List (Event V) := calls.filter c.owns

theorem own_append (c : Chain V) (l l' : List (Event V)) : own c (l ++ l') = own c l ++ own c l' :=
  List.filter_append ..

theorem own_all {c : Chain V} {l : List (Event V)} (h : ∀ e ∈ l, c.owns e = true) : own c l = l :=
  List.filter_eq_self.mpr h

theorem own_none {c : Chain V} {l : List (Event V)} (h : ∀ e ∈ l, c.owns e = false) :
    own c l = [] := List.filter_eq_nil_iff.mpr fun e he => by simp [h e he]

theorem Linked.suffix {H : Heap V} (pre : Chain V) {c : Chain V} (h : Linked H (pre ++ c)) : Linked H c := by
  induction pre with
  | nil => exact h
  | cons s pre ih => exact ih h.2

theorem Shaped.suffix (pre : Chain V) {c : Chain V} (h : Shaped (pre ++ c)) : Shaped c := by
  induction pre with
  | nil => exact h
  | cons s pre ih => exact ih h.2

theorem Chain.owns_suffix (pre : Chain V) {c : Chain V} {e : Event V} (h : c.owns e = true) :
    Chain.owns (pre ++ c) e = true := by
  induction pre with
  | nil => exact h
  | cons s pre ih => exact Chain.owns_cons s ih

/-! ## chains in one heap -/

theorem disjoint_of_flatten {ls : List (List Ref)} (hnd : ls.flatten.Nodup) {a b : List Ref}
    (ha : a ∈ ls) (hb : b ∈ ls) (hne : a ≠ b) : List.Disjoint a b := by
  have hsymm : Std.Symm (fun a b : List Ref => List.Disjoint a b) := ⟨fun _ _ h => h.symm⟩
  exact (List.nodup_flatten.mp hnd).2.forall ha hb hne

section
variable {h : Heap V} {cs : List (List Ref)} (hb : Built Anywhere h cs) {hd hd' : Ref}
  {fs fs' : List Ref} (hc : hd :: fs ∈ cs) (hc' : hd' :: fs' ∈ cs)
include hb hc hc'

/-- one chain for each head -/
theorem Built.same (he : hd = hd') : fs = fs' := by
  by_contra hne
  have h1 := disjoint_of_flatten hb.wf.nodup hc hc' (fun e => hne (List.cons_eq_cons.mp e).2)
  exact h1 (List.mem_cons_self ..) (he ▸ List.mem_cons_self ..)

theorem Built.apart (hne : hd ≠ hd') : List.Disjoint (hd :: fs) (hd' :: fs') :=
  disjoint_of_flatten hb.wf.nodup hc hc' (fun e => hne (List.cons_eq_cons.mp e).1)

/-- no call is about two chains -/
theorem Built.owns_apart (hne : hd ≠ hd') {e : Event V} (he : (chain h fs).owns e = true) :
    (chain h fs').owns e = false := by
  have hap := hb.apart hc hc' hne
  have hthis := hb.this hc
  have hthis' := hb.this hc'
  have mem : ∀ {s : Stage V}, s ∈ chain h fs → s.this ∈ hd :: fs := fun hs =>
    List.mem_cons_of_mem _ (hthis ▸ List.mem_map_of_mem hs)
  have mem' : ∀ {s : Stage V}, s ∈ chain h fs' → s.this ∈ hd' :: fs' := fun hs =>
    List.mem_cons_of_mem _ (hthis' ▸ List.mem_map_of_mem hs)
  have obj : ∀ {gs : List Ref} {s : Stage V}, s ∈ chain h gs →
      ∃ F : Object V, h[s.this]? = some F ∧ F.nxtF = s.nxtF := by
    intro gs s hs
    obtain ⟨f, -, hst⟩ := List.mem_filterMap.mp hs
    unfold stage? at hst
    split at hst
    · next b v n x a j g e hF =>
      cases hst
      exact ⟨_, hF, rfl⟩
    · cases hst
  by_contra hn
  rw [Bool.not_eq_false] at hn
  cases e with
  | body f a =>
    simp only [Chain.owns, List.any_eq_true, decide_eq_true_eq] at he hn
    obtain ⟨s, hs, rfl⟩ := he
    obtain ⟨s', hs', he'⟩ := hn
    exact hap (mem hs) (he' ▸ mem' hs')
  | handler x a =>
    simp only [Chain.owns, List.any_eq_true, decide_eq_true_eq] at he hn
    obtain ⟨s, hs, hx⟩ := he
    obtain ⟨s', hs', hx'⟩ := hn
    obtain ⟨F, hF, hFx⟩ := obj hs
    obtain ⟨F', hF', hFx'⟩ := obj hs'
    have h1 := hb.wf.nxtF_inj _ _ F F' x hF hF' (hFx.trans hx) (hFx'.trans hx')
    exact hap (mem hs) (h1 ▸ mem' hs')

end

/-! ## one move of one chain -/

/-- From `t` to `t'` only calls about the chain `hd :: fs` were made, and only its futures changed. -/
structure Within (h : Heap V) (hd : Ref) (fs : List Ref) (t t' : Trail V) : Prop where
  calls : ∃ l, t'.trace = t.trace ++ l ∧ ∀ e ∈ l, (chain h fs).owns e = true
  errored : ∀ u, u ∉ fs → t'.errored u = t.errored u
  value : ∀ u, u ∉ hd :: fs → t'.value u = t.value u

section
variable {h : Heap V} {cs : List (List Ref)} (hb : Built Anywhere h cs) {hd hd' : Ref}
  {fs fs' : List Ref} (hc : hd :: fs ∈ cs) (hc' : hd' :: fs' ∈ cs)
include hb hc hc'

/-- another chain does not notice -/
theorem Within.other {t t' : Trail V} (hw : Within h hd fs t t') (hne : hd ≠ hd') :
    own (chain h fs') t'.trace = own (chain h fs') t.trace ∧
      (∀ s ∈ chain h fs', t'.errored s.this = t.errored s.this) ∧ t'.value hd' = t.value hd' := by
  have hap := hb.apart hc hc' hne
  obtain ⟨l, hl, hown⟩ := hw.calls
  refine ⟨?_, fun s hs => hw.errored _ (fun hm => ?_), hw.value _ (fun hm => ?_)⟩
  · rw [hl, own_append, own_none (fun e he => hb.owns_apart hc hc' hne (hown e he)),
      List.append_nil]
  · refine hap (List.mem_cons_of_mem _ hm) (List.mem_cons_of_mem _ ?_)
    rw [← hb.this hc']
    exact List.mem_map_of_mem hs
  · exact hap hm (List.mem_cons_self ..)

end

/-! ## between two moves -/

/-- `begun` are the chains started so far, and `P` those of them that wait, in queue order. -/
structure Going (h : Heap V) (cs : List (List Ref)) (begun : List (Ref × List V))
    (P : List (Ref × Wait V)) (t : Trail V) : Prop where
  queue : t.dyn_tq = P.map fun p => p.2.task
  nodup : (P.map Prod.fst).Nodup
  begun_of_wait : ∀ p ∈ P, p.1 ∈ begun.map Prod.fst
  wait : ∀ p ∈ P, ∀ fs args, p.1 :: fs ∈ cs → (p.1, args) ∈ begun →
    p.2.Ok t ∧ (∃ pre, chain h fs = pre ++ p.2.chain) ∧
      own (chain h fs) t.trace ++ p.2.told = told (chain h fs) (delivered h p.1 args)
  done : ∀ hd args fs, (hd, args) ∈ begun → hd :: fs ∈ cs → hd ∉ P.map Prod.fst →
    own (chain h fs) t.trace = told (chain h fs) (delivered h hd args)
  fresh : ∀ hd fs, hd :: fs ∈ cs → hd ∉ begun.map Prod.fst →
    own (chain h fs) t.trace = [] ∧ (∀ s ∈ chain h fs, t.errored s.this = false) ∧
      ∀ F, h[hd]? = some F → F.kind = .bound → t.value hd = F.value

/-- how many closures are still to run -/
def leftover (P : List (Ref × Wait V)) : Nat := (P.map fun p => p.2.left).sum

section
variable {h : Heap V} {cs : List (List Ref)} (hb : Built Anywhere h cs)

theorem Going.init (hb : Built Anywhere h cs) : Going h cs [] [] (World.init h).trail := by
  refine ⟨rfl, List.nodup_nil, by simp, by simp, by simp, fun hd fs hc _ => ⟨rfl, fun s _ => ?_, ?_⟩⟩
  · show (h[s.this]?).elim false Object.errored = false
    cases hs : h[s.this]? with
    | none => rfl
    | some G => exact hb.wf.errored _ G hs
  · intro F hF _
    simp [World.trail, World.init, hF]

/-- the waiting chains after a move of the chain `hd` -/
def waits (P : List (Ref × Wait V)) (hd : Ref) (p : Option (Wait V)) : List (Ref × Wait V) :=
  P ++ (p.map fun q => (hd, q)).toList

theorem leftover_waits (P : List (Ref × Wait V)) (hd : Ref) (p : Option (Wait V)) :
    leftover (waits P hd p) = leftover P + (p.map Wait.left).getD 0 := by
  cases p with
  | none => simp [leftover, waits]
  | some q => simp [leftover, waits]

include hb in
/-- A move of one chain that leaves the rest of its calls to `p`. -/
theorem Going.move {begun : List (Ref × List V)} {P : List (Ref × Wait V)} {t t' : Trail V}
    {hd : Ref} {args : List V} {fs : List Ref} {p : Option (Wait V)}
    (hnd : (begun.map Prod.fst).Nodup) (hc : hd :: fs ∈ cs) (hbegun : (hd, args) ∈ begun)
    (hP : hd ∉ P.map Prod.fst) (hPnd : (P.map Prod.fst).Nodup)
    (hPbegun : ∀ q ∈ P, q.1 ∈ begun.map Prod.fst)
    (hwithin : Within h hd fs t t') (hq : t'.dyn_tq = (waits P hd p).map fun p => p.2.task)
    (hwait : ∀ q ∈ P, ∀ fs' args', q.1 :: fs' ∈ cs → (q.1, args') ∈ begun →
      q.2.Ok t ∧ (∃ pre, chain h fs' = pre ++ q.2.chain) ∧
        own (chain h fs') t.trace ++ q.2.told = told (chain h fs') (delivered h q.1 args'))
    (hdone : ∀ hd' args' fs', (hd', args') ∈ begun → hd' :: fs' ∈ cs → hd' ≠ hd →
      hd' ∉ P.map Prod.fst → own (chain h fs') t.trace = told (chain h fs') (delivered h hd' args'))
    (hfresh : ∀ hd' fs', hd' :: fs' ∈ cs → hd' ∉ begun.map Prod.fst →
      own (chain h fs') t.trace = [] ∧ (∀ s ∈ chain h fs', t.errored s.this = false) ∧
        ∀ F, h[hd']? = some F → F.kind = .bound → t.value hd' = F.value)
    (hp : ∀ q ∈ p, q.Ok t' ∧ ∃ pre, chain h fs = pre ++ q.chain)
    (hcalls : own (chain h fs) t'.trace ++ (p.map Wait.told).getD []
      = told (chain h fs) (delivered h hd args)) :
    Going h cs begun (waits P hd p) t' := by
  have huniq : ∀ args', (hd, args') ∈ begun → args' = args := fun args' hm =>
    (Prod.mk.inj (List.inj_on_of_nodup_map hnd hm hbegun rfl)).2
  have hfst : ∀ hd', hd' ∈ (waits P hd p).map Prod.fst ↔
      hd' ∈ P.map Prod.fst ∨ (hd' = hd ∧ p.isSome = true) := by
    intro hd'
    cases p with
    | none => simp [waits]
    | some q => simp [waits]
  refine ⟨hq, ?_, fun q hqm => ?_, fun q hqm fs' args' hc' hm => ?_,
    fun hd' args' fs' hm hc' hnot => ?_, fun hd' fs' hc' hnot => ?_⟩
  · cases p with
    | none => simpa [waits] using hPnd
    | some q =>
      rw [waits, List.map_append, List.nodup_append]
      refine ⟨hPnd, by simp, fun a ha b hb' e => ?_⟩
      obtain rfl : b = hd := by simpa using hb'
      exact hP (e ▸ ha)
  · rcases List.mem_append.mp hqm with hqm | hqm
    · exact hPbegun q hqm
    · cases p with
      | none => simp at hqm
      | some q' =>
        obtain rfl : q = (hd, q') := by simpa using hqm
        exact List.mem_map_of_mem hbegun
  · rcases List.mem_append.mp hqm with hqm | hqm
    · obtain ⟨hok, hpre, hown⟩ := hwait q hqm fs' args' hc' hm
      have hne : hd ≠ q.1 := fun e => hP (e ▸ List.mem_map_of_mem hqm)
      obtain ⟨h1, h2, -⟩ := hwithin.other hb hc hc' hne
      refine ⟨⟨hok.settle, fun s hs => ?_, hok.settles⟩, hpre, by rw [h1]; exact hown⟩
      obtain ⟨pre, hpre⟩ := hpre
      rw [h2 s (by rw [hpre]; exact List.mem_append_right _ (List.mem_cons_of_mem _ hs))]
      exact hok.errored s hs
    · cases p with
      | none => simp at hqm
      | some q' =>
        obtain rfl : q = (hd, q') := by simpa using hqm
        obtain rfl := hb.same hc hc' rfl
        obtain rfl := huniq args' hm
        obtain ⟨hok, hpre⟩ := hp q' rfl
        exact ⟨hok, hpre, hcalls⟩
  · rw [hfst, not_or] at hnot
    by_cases hne : hd' = hd
    · subst hne
      obtain rfl := hb.same hc hc' rfl
      obtain rfl := huniq args' hm
      have hpn : p = none := by simpa using hnot.2
      subst hpn
      simpa using hcalls
    · rw [(hwithin.other hb hc hc' (Ne.symm hne)).1]
      exact hdone hd' args' fs' hm hc' hne hnot.1
  · obtain ⟨h1, h2, h3⟩ := hfresh hd' fs' hc' hnot
    have hne : hd ≠ hd' := fun e => hnot (e ▸ List.mem_map_of_mem hbegun)
    obtain ⟨h4, h5, h6⟩ := hwithin.other hb hc hc' hne
    exact ⟨h4.trans h1, fun s hs => (h5 s hs).trans (h2 s hs), fun F hF hk => h6.trans (h3 F hF hk)⟩

end

/-! ## the two moves -/

variable [Movable V] {h : Heap V} {cs : List (List Ref)} (hb : Built Anywhere h cs)
  {begun : List (Ref × List V)} {P : List (Ref × Wait V)} {t : Trail V}
  (hg : Going h cs begun P t)
include hb hg

/-- a chain is started -/
theorem Going.start {hd : Ref} {args : List V} {fs : List Ref}
    (hnd : ((begun ++ [(hd, args)]).map Prod.fst).Nodup) (hc : hd :: fs ∈ cs)
    (hs : Settles (chain h fs) (delivered h hd args)) :
    ∃ t' P', run hd args (t.world h) = .ok () (t'.world h) ∧
      Going h cs (begun ++ [(hd, args)]) P' t' := by
  have hnot : hd ∉ begun.map Prod.fst := by
    rw [List.map_append, List.nodup_append] at hnd
    exact fun hm => hnd.2.2 hd hm hd (by simp) rfl
  have hP : hd ∉ P.map Prod.fst := by
    intro hm
    obtain ⟨q, hq, rfl⟩ := List.mem_map.mp hm
    exact hnot (hg.begun_of_wait q hq)
  have hmem : ∀ {hd' args'}, (hd', args') ∈ begun ++ [(hd, args)] → hd' ≠ hd → (hd', args') ∈ begun := by
    intro hd' args' hm hne
    rcases List.mem_append.mp hm with hm | hm
    · exact hm
    · exact absurd (Prod.mk.inj (List.mem_singleton.mp hm)).1 hne
  obtain ⟨hown, herr, hval⟩ := hg.fresh hd fs hc hnot
  obtain ⟨F, hF, -⟩ := (hb.wf.linked _ hc).1
  obtain ⟨t₁, h1, hA⟩ := Chain.start_run hF (hb.head_kind hc hF) (chain h fs) args (hval F hF)
  obtain ⟨t', p, h2, h3⟩ := Chain.run_yields (hb.shaped hc) (delivered h hd args) t₁ hs
    (fun s hs' => by rw [hA.errored]; exact herr s hs')
  have hsim := run_chain hb hc hF args (t.world h) t rfl
  rw [h1, h2] at hsim
  obtain ⟨w, hw, rfl⟩ := hsim.ok
  obtain ⟨l, hl, hlown, hevs⟩ := h3.calls
  rw [hA.trace] at hl
  have hthis := hb.this hc
  have hwithin : Within h hd fs t t' := by
    refine ⟨⟨l, hl, hlown⟩, fun u hu => ?_, fun u hu => ?_⟩
    · rw [h3.errored u (by rw [hthis]; exact hu), hA.errored]
    · rw [List.mem_cons, not_or] at hu
      rw [h3.value u (by rw [hthis]; exact hu.2), hA.value u hu.1]
  have hbegun : (hd, args) ∈ begun ++ [(hd, args)] := by simp
  refine ⟨t', waits P hd p, hw, ?_⟩
  refine Going.move hb hnd hc hbegun hP hg.nodup (fun q hq => ?_) hwithin ?_
    (fun q hq fs' args' hc' hm => ?_) (fun hd' args' fs' hm hc' hne hn => ?_)
    (fun hd' fs' hc' hn => ?_) h3.wait ?_
  · rw [List.map_append]
    exact List.mem_append_left _ (hg.begun_of_wait q hq)
  · rw [h3.queue, hA.dyn_tq, hg.queue, waits, List.map_append]
    cases p <;> rfl
  · exact hg.wait q hq fs' args' hc' (hmem hm (fun e => hP (e ▸ List.mem_map_of_mem hq)))
  · exact hg.done hd' args' fs' (hmem hm hne) hc' hn
  · refine hg.fresh hd' fs' hc' (fun hm => hn ?_)
    rw [List.map_append]
    exact List.mem_append_left _ hm
  · rw [hl, own_append, hown, own_all hlown, hevs]
    rfl

omit hb in
/-- `run_one` on an empty queue -/
theorem Going.run_one_nil (hP : P = []) : run_one (t.world h) = .ok false (t.world h) := by
  unfold run_one
  rw [get_bind, Trail.world_dyn_tq, hg.queue, hP]
  rfl

/-- the front closure is executed -/
theorem Going.run_one (hnd : (begun.map Prod.fst).Nodup)
    (hheads : ∀ hd ∈ begun.map Prod.fst, ∃ fs, hd :: fs ∈ cs) {hd : Ref} {q : Wait V}
    {P' : List (Ref × Wait V)} (hP : P = (hd, q) :: P') :
    ∃ t' p, Future.run_one (t.world h) = .ok true (t'.world h) ∧
      Going h cs begun (waits P' hd p) t' ∧ leftover (waits P' hd p) + 1 = leftover P := by
  subst hP
  have hbm := hg.begun_of_wait (hd, q) (List.mem_cons_self ..)
  obtain ⟨fs, hc⟩ := hheads hd hbm
  obtain ⟨args, hbegun⟩ : ∃ args, (hd, args) ∈ begun := by
    obtain ⟨⟨x, args⟩, hm, he⟩ := List.mem_map.mp hbm
    obtain rfl : x = hd := he
    exact ⟨args, hm⟩
  obtain ⟨hok, ⟨pre, hpre⟩, hown⟩ : q.Ok t ∧ (∃ pre, chain h fs = pre ++ q.chain) ∧
      own (chain h fs) t.trace ++ q.told = told (chain h fs) (delivered h hd args) :=
    hg.wait (hd, q) (List.mem_cons_self ..) fs args hc hbegun
  have hlen : q.rest.length ≤ (t.world h).fuel := by
    have h1 : (chain h fs).length = fs.length := by rw [← List.length_map, hb.this hc]
    have h2 := hb.length_lt hc
    rw [hpre, List.length_append, Wait.chain, List.length_cons] at h1
    simp only [World.fuel, Trail.world_length]
    omega
  have hlink : Linked h q.chain := Linked.suffix pre (by rw [← hpre]; exact hb.linked hc)
  have hsh : Shaped q.chain := Shaped.suffix pre (by rw [← hpre]; exact hb.shaped hc)
  obtain ⟨t', p, h1, h2⟩ := Chain.stmt_yields hsh (Chain.run_yields hsh.2) hok.settle hok.settles
    hok.errored
  have hsim := exec_chain hlink (t.world h).fuel hlen [q.stmt] (t.world h) t rfl
  rw [h1] at hsim
  obtain ⟨w, hw, rfl⟩ := hsim.ok
  obtain ⟨l, hl, hlown, hevs⟩ := h2.calls
  have hlown' : ∀ e ∈ l, (chain h fs).owns e = true := fun e he => by
    rw [hpre]
    exact Chain.owns_suffix pre (hlown e he)
  have hthis : ∀ u, u ∉ fs → u ∉ q.chain.map Stage.this := by
    intro u hu hm
    refine hu ?_
    rw [← hb.this hc, hpre, List.map_append]
    exact List.mem_append_right _ hm
  have hqueue : t'.dyn_tq = q.task :: (waits P' hd p).map fun p => p.2.task := by
    rw [h2.queue, hg.queue, waits, List.map_append]
    cases p <;> rfl
  have hnodup := List.nodup_cons.mp hg.nodup
  refine ⟨{ t' with dyn_tq := t'.dyn_tq.tail }, p, ?_, ?_, ?_⟩
  · unfold Future.run_one
    rw [get_bind, Trail.world_dyn_tq, hg.queue]
    have hfire : fire q.task (t.world h) = .ok () (t'.world h) := by
      unfold fire
      rw [get_bind]
      exact hw
    show (fire q.task >>= fun _ => (pop >>= fun _ => pure true)) (t.world h) = _
    rw [bind_ok hfire]
    rfl
  · refine Going.move hb hnd hc hbegun hnodup.1 hnodup.2
      (fun q' hq' => hg.begun_of_wait q' (List.mem_cons_of_mem _ hq')) (t := t)
      ⟨⟨l, hl, hlown'⟩, fun u hu => h2.errored u (hthis u hu),
        fun u hu => h2.value u (hthis u (fun hm => hu (List.mem_cons_of_mem _ hm)))⟩ ?_
      (fun q' hq' => hg.wait q' (List.mem_cons_of_mem _ hq'))
      (fun hd'' args' fs' hm hc' hne hn => hg.done hd'' args' fs' hm hc' ?_)
      hg.fresh (fun q' hq' => ?_) ?_
    · rw [hqueue]
      rfl
    · rw [List.map_cons, List.mem_cons, not_or]
      exact ⟨hne, hn⟩
    · obtain ⟨hok', pre', hpre'⟩ := h2.wait q' hq'
      exact ⟨⟨hok'.settle, hok'.errored, hok'.settles⟩, pre ++ pre', by
        rw [hpre, List.append_assoc, ← hpre']
        rfl⟩
    · show own (chain h fs) t'.trace ++ _ = _
      rw [hl, own_append, own_all hlown', List.append_assoc, ← hevs]
      exact hown
  · have h3 := h2.left
    rw [leftover_waits, ← h3]
    simp only [leftover, List.map_cons, List.sum_cons, Wait.left, Wait.chain]
    omega

/-! ## all moves -/

theorem Going.perform (ms : List (Move V)) (hnd : ((begun ++ starts ms).map Prod.fst).Nodup)
    (hs : ∀ hd args, (hd, args) ∈ begun ++ starts ms →
      ∃ fs, hd :: fs ∈ cs ∧ Settles (chain h fs) (delivered h hd args)) :
    ∃ t' P', perform ms (t.world h) = .ok () (t'.world h) ∧
      Going h cs (begun ++ starts ms) P' t' := by
  induction ms generalizing begun P t with
  | nil => exact ⟨t, P, rfl, by simpa [starts] using hg⟩
  | cons m ms ih =>
    cases m with
    | start hd args =>
      have hsplit : begun ++ starts (.start hd args :: ms)
          = begun ++ [(hd, args)] ++ starts ms := by simp [starts]
      rw [hsplit] at hnd hs ⊢
      obtain ⟨fs, hc, hset⟩ := hs hd args (by simp)
      have hnd' := (List.nodup_append.mp (by rwa [List.map_append] at hnd)).1
      obtain ⟨t₁, P₁, h1, h2⟩ := hg.start hb hnd' hc hset
      obtain ⟨t₂, P₂, h3, h4⟩ := ih h2 hnd hs
      exact ⟨t₂, P₂, (bind_ok h1).trans h3, h4⟩
    | run_one =>
      have hsame : starts (.run_one :: ms) = starts ms := rfl
      rw [hsame] at hnd hs ⊢
      cases hP : P with
      | nil =>
        obtain ⟨t₂, P₂, h3, h4⟩ := ih hg hnd hs
        have h1 : Move.run_one.perform (t.world h) = .ok () (t.world h) :=
          bind_ok (hg.run_one_nil hP)
        exact ⟨t₂, P₂, (bind_ok h1).trans h3, h4⟩
      | cons q P' =>
        have hnd' : (begun.map Prod.fst).Nodup := by
          rw [List.map_append] at hnd
          exact (List.nodup_append.mp hnd).1
        have hheads : ∀ hd ∈ begun.map Prod.fst, ∃ fs, hd :: fs ∈ cs := by
          intro hd hm
          obtain ⟨⟨hd', args⟩, hm', rfl⟩ := List.mem_map.mp hm
          obtain ⟨fs, hc, -⟩ := hs hd' args (List.mem_append_left _ hm')
          exact ⟨fs, hc⟩
        obtain ⟨t₁, p, h1, h2, -⟩ := hg.run_one hb hnd' hheads hP
        obtain ⟨t₂, P₂, h3, h4⟩ := ih h2 hnd hs
        have h1' : Move.run_one.perform (t.world h) = .ok () (t₁.world h) := bind_ok h1
        exact ⟨t₂, P₂, (bind_ok h1').trans h3, h4⟩

/-- every `run_one` uses up a closure, until none is left -/
theorem Going.drain (hnd : (begun.map Prod.fst).Nodup)
    (hheads : ∀ hd ∈ begun.map Prod.fst, ∃ fs, hd :: fs ∈ cs) :
    ∃ t' : Trail V, Future.perform (List.replicate (leftover P) .run_one) (t.world h) = .ok () (t'.world h) ∧
      t'.dyn_tq = [] := by
  induction hn : leftover P generalizing P t with
  | zero =>
    cases hP : P with
    | nil => exact ⟨t, rfl, by rw [hg.queue, hP]; rfl⟩
    | cons q P' =>
      rw [hP] at hn
      simp only [leftover, List.map_cons, List.sum_cons, Wait.left] at hn
      omega
  | succ n ih =>
    cases hP : P with
    | nil => rw [hP] at hn; cases hn
    | cons q P' =>
      obtain ⟨t₁, p, h1, h2, h3⟩ := hg.run_one hb hnd hheads hP
      obtain ⟨t₂, h4, h5⟩ := ih h2 (by omega)
      have h1' : Move.run_one.perform (t.world h) = .ok () (t₁.world h) := bind_ok h1
      exact ⟨t₂, (bind_ok h1').trans h4, h5⟩

omit hg in
/-- **Settling later changes nothing.**  Chains of one heap are started, each once, and queued
closures executed, in any order.  No move throws; when the queue is empty each chain that was
started has made exactly the calls of its immediate version; and enough further `run_one`s empty
the queue. -/
theorem deferred_eq_immediate (ms : List (Move V)) (hnd : ((starts ms).map Prod.fst).Nodup)
    (hs : ∀ hd args, (hd, args) ∈ starts ms →
      ∃ fs, hd :: fs ∈ cs ∧ Settles (chain h fs) (delivered h hd args)) :
    ∃ w, perform ms (World.init h) = .ok () w ∧
      (w.dyn_tq = [] → ∀ hd args fs, (hd, args) ∈ starts ms → hd :: fs ∈ cs →
        own (chain h fs) w.trace = (firstRun (immediate h) hd args).calls) ∧
      ∃ n w', perform (List.replicate n .run_one) w = .ok () w' ∧ w'.dyn_tq = [] := by
  have hw : World.init h = (World.init h).trail.world h := (World.trail_world (World.init h)).symm
  obtain ⟨t, P, h1, h2⟩ := (Going.init hb).perform hb ms (by simpa using hnd)
    (by simpa using hs)
  rw [List.nil_append] at h2
  rw [hw]
  refine ⟨t.world h, h1, fun hempty hd args fs hm hc => ?_, ?_⟩
  · have hP : P = [] := by
      have h3 := h2.queue
      rw [show t.dyn_tq = [] from hempty] at h3
      exact List.map_eq_nil_iff.mp h3.symm
    obtain ⟨fs', hc', hset⟩ := hs hd args hm
    obtain rfl := hb.same hc hc' rfl
    rw [firstRun_immediate hb hc hset]
    exact h2.done hd args fs hm hc (by simp [hP])
  · have hheads : ∀ hd ∈ (starts ms).map Prod.fst, ∃ fs, hd :: fs ∈ cs := by
      intro hd hm
      obtain ⟨⟨hd', args⟩, hm', rfl⟩ := List.mem_map.mp hm
      obtain ⟨fs, hc, -⟩ := hs hd' args hm'
      exact ⟨fs, hc⟩
    obtain ⟨t', h3, h4⟩ := h2.drain hb hnd hheads
    exact ⟨leftover P, t'.world h, h3, h4⟩

end

/-- `body2`, with the call of its accept function in a queued closure -/
def body2Later : Body Nat := .accRej fun args => [.add [.accept rfl [args.sum]]]

/-- The chain of `main` with a delayed `body2`, and the other head run in between; the `run_one` empties the
queue. -/
theorem deferred_main :
    ∃ w, perform [.start 1 [], .start 0 [1, 2], .run_one] (World.init (mainHeap body2Later))
        = .ok () w ∧ w.dyn_tq = [] ∧
      own (chain (mainHeap body2Later) [2, 3, 4, 5]) w.trace
        = [.body 2 [2, 5], .body 3 [7], .body 4 [8], .body 5 [9]] ∧
      own (chain (mainHeap body2Later) [2, 3, 4, 5]) w.trace
        = (firstRun (immediate (mainHeap body2Later)) 1 []).calls := by
  obtain ⟨w, h1, h2, -⟩ := deferred_eq_immediate (mainHeap_built body2Later).anywhere
    [.start 1 [], .start 0 [1, 2], .run_one] (by decide) (fun hd args hm => by
      rcases List.mem_cons.mp hm with hm | hm
      · obtain ⟨rfl, rfl⟩ := Prod.mk.inj hm
        refine ⟨[2, 3, 4, 5], List.mem_cons_self .., ?_⟩
        rw [mainHeap_chain]
        simp [Settles, Body.settles?, Body.settle?, Body.isVoid, Stmt.settle?, body2Later]
      · obtain ⟨rfl, rfl⟩ := Prod.mk.inj (List.mem_singleton.mp hm)
        exact ⟨[], by simp, trivial⟩)
  have hempty : w.dyn_tq = [] := by
    cases h1
    rfl
  have hsame := h2 hempty 1 [] [2, 3, 4, 5] (by simp [starts]) (List.mem_cons_self ..)
  exact ⟨w, h1, hempty, hsame.trans rfl, hsame⟩

end Future
end Pharoah
