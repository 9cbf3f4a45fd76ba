import Pharoah.Future.Schedule
import Pharoah.Future.Errored

/-!
# Futures: the pieces in which a chain runs

A chain runs in pieces: `run` of its head, `run` of one of its futures, and each queued closure
when it is fired.  On a built chain, in any state of the two fields a run changes, each of them is
a program along the list of the futures:

* `seen_head`    `run` of the head;
* `seen_stage`   `run` of a future of the chain;
* `seen_fire`    a closure over the functions of a future of the chain, when it is fired.

`Chain.reject_logs`, `Chain.exec_logs` and the rules after them say which calls a piece adds.
-/

namespace Pharoah
namespace Future

open Prog

section
variable {V : Type}

/-- what a program that only adds calls shows -/
theorem Trail.seen_logs {P : List (Event V) → Option Err → Prop} {m : A V Unit}
    (h : Logs Trail.trace P m) (t : Trail V) : P (t.seen m).calls (thrown (m t)) := by
  obtain ⟨l, hl, hP⟩ := h t
  rwa [Trail.seen_calls hl]

theorem Trail.seen_result (t : Trail V) (m : A V Unit) :
    (t.seen m).result = match thrown (m t) with
      | none => .ok ()
      | some e => .error e := by
  show outcome (m t) = _
  cases m t <;> rfl

/-- what a head of kind `k` hands on: its values, or those it is run on -/
def Kind.handsOn (k : Kind V) (value args : List V) : List V :=
  match k with
  | .bound => value
  | _ => args

/-- what the head shows is what the rest of its chain shows -/
theorem Chain.start_seen [Movable V] {k : Kind V} (hk : k = .bound ∨ k = .unbound) (hd : Ref)
    (args : List V) (t : Trail V) : ∃ t', Alike hd t t' ∧
      ∀ c, t.seen (Chain.start k hd c args) = t'.seen (Chain.run c (k.handsOn (t.value hd) args)) := by
  have hnil : ∀ t : Trail V, t.seen (pure ()) = ⟨.ok (), [], []⟩ := by
    intro t
    unfold Trail.seen
    simp [pure_apply, outcome]
  rcases hk with rfl | rfl
  · refine ⟨_, .setValue hd t ((t.value hd).map Movable.movedFrom), fun c => ?_⟩
    cases c with
    | nil => exact (hnil t).trans (hnil _).symm
    | cons s rest => rfl
  · exact ⟨t, .refl hd t, fun _ => rfl⟩

variable {ok : Heap V → Ref → Prop} {h : Heap V} {cs : List (List Ref)} (hb : Built ok h cs)
  {hd : Ref} {fs : List Ref} (hc : hd :: fs ∈ cs)
include hb hc

theorem Built.length_chain : (chain h fs).length = fs.length := by
  rw [← List.length_map, hb.this hc]

theorem Built.nodup_chain : ((chain h fs).map Stage.this).Nodup := by
  rw [hb.this hc]
  exact (List.nodup_cons.mp (hb.nodup hc)).2

/-- the futures of a chain from one of them on -/
theorem Built.suffix {pre c : Chain V} (hs : chain h fs = pre ++ c) :
    Linked h c ∧ Shaped c ∧ c.length ≤ h.length := by
  have h1 := hb.length_chain hc
  have h2 := hb.length_lt hc
  rw [hs, List.length_append] at h1
  exact ⟨Linked.suffix pre (hs ▸ hb.linked hc), Shaped.suffix pre (hs ▸ hb.shaped hc), by omega⟩

variable [Movable V]

theorem seen_fire {pre post : Chain V} {s : Stage V} (hs : chain h fs = pre ++ s :: post)
    {acc : Bool} (code : List (Stmt V acc)) (t : Trail V) :
    seen (t.world h) (fire ⟨acc, s.this, code⟩)
      = t.seen (Chain.exec (Chain.run post) (s :: post) s.this code) := by
  obtain ⟨h1, -, h2⟩ := hb.suffix hc hs
  apply seen_sim
  rintro _ t rfl
  unfold fire
  rw [get_bind]
  refine exec_chain h1 _ ?_ code _ t rfl
  simp only [World.fuel, Trail.world_length]
  rw [List.length_cons] at h2
  omega

/-- The head hands on its values, or those it is run on, and changes no more than its own value. -/
theorem seen_head (args : List V) (t : Trail V) :
    ∃ vs t', Alike hd t t' ∧
      seen (t.world h) (run hd args) = t'.seen (Chain.run (chain h fs) vs) := by
  obtain ⟨F, hF, -⟩ := (hb.wf.linked _ hc).1
  obtain ⟨t', h1, h2⟩ := Chain.start_seen (hb.head_kind hc hF) hd args t
  exact ⟨_, t', h1, ((seen_run hb hc hF args t).1).trans (h2 _)⟩

end

/-! ## the calls that a piece adds -/

section
variable {V : Type}

/-- the body, of any style, calls its reject function on `args` before it returns -/
def Body.callsReject (b : Body V) (args : List V) : Bool :=
  match b with
  | .accRej code => rejects (code args)
  | .rej _ code => rejects (code args).1
  | .noFun _ _ => false

variable {P : List (Event V) → Option Err → Prop}

/-- a reject adds the handler it reaches, or nothing -/
theorem Chain.reject_logs {s : Stage V} {rest : Chain V} (hnil : P [] none)
    (hthrow : P [] (some .badFunctionCall))
    (hx : ∀ x, Chain.caught (s :: rest) = some x → P [.handler x []] none) (b : Bool) :
    Logs Trail.trace P (Chain.reject (s :: rest) b) := by
  have hset : Logs Trail.trace (fun l r => l = [] ∧ r = none)
      (modify fun t : Trail V => if b then t.setErrored s.this else t) :=
    Logs.modify (ε := Err) (l := []) (fun t => by cases b <;> simp [Trail.setErrored]) ⟨rfl, rfl⟩
  have hfw : Logs Trail.trace P (Chain.forward (s :: rest)) := by
    unfold Chain.forward
    cases hc : Chain.caught (s :: rest) with
    | none => exact Logs.pure hnil ()
    | some x => exact Logs.modify (l := [.handler x []]) (fun t => rfl) (hx x hc)
  refine Logs.seq (Q := P) (fun l l' r h h' => ?_) (fun l e h => ?_) hset (fun _ => ?_)
  · rw [h.1]
    exact h'
  · cases h.2
  · cases s.slot with
    | empty => exact fun t => ⟨[], (List.append_nil _).symm, hthrow⟩
    | next => exact hfw
    | handler x => exact hfw

variable (hnil : P [] none) (happ : ∀ l l' r, P l none → P l' r → P (l ++ l') r)
include hnil happ

theorem Chain.exec_logs {next : List V → A V Unit} (hnext : ∀ vs, Logs Trail.trace P (next vs))
    {c : Chain V} (f : Ref) {acc : Bool} {code : List (Stmt V acc)}
    (hrej : rejects code = true → Logs Trail.trace P (Chain.reject c (!acc))) :
    Logs Trail.trace P (Chain.exec next c f code) := by
  induction code with
  | nil => exact Logs.pure hnil ()
  | cons st code ih =>
    cases st with
    | accept h vs => exact Logs.bind happ (hnext vs) (fun _ => ih hrej)
    | reject es => exact Logs.bind happ (hrej rfl) (fun _ => ih fun _ => hrej rfl)
    | add task =>
      exact Logs.bind happ (Logs.modify (fun t => (List.append_nil t.trace).symm) hnil)
        (fun _ => ih hrej)

variable [Movable V]

omit happ in
theorem Chain.callbody_logs {next : List V → A V Unit}
    (hnext : ∀ vs, Logs Trail.trace P (next vs)) (last : Bool) (f : Ref) (r : Ret) (vs : List V) :
    Logs Trail.trace P (Chain.callbody next last f r vs) := by
  intro t
  by_cases hs : r = .void ∨ t.errored f = true ∨ last = true
  · obtain ⟨t', h1, h2⟩ := Chain.callbody_stop next last f r vs hs
    rw [h1]
    exact ⟨[], by rw [List.append_nil]; exact h2.trace, hnil⟩
  · rw [not_or, not_or, Bool.not_eq_true, Bool.not_eq_true] at hs
    obtain ⟨hv, he, rfl⟩ := hs
    obtain ⟨t', h1, h2⟩ := Chain.callbody_go next hv vs he
    obtain ⟨l, hl, hP⟩ := hnext vs t'
    rw [h1]
    exact ⟨l, by rw [hl, h2.trace], hP⟩

theorem Chain.runBody_logs {c : Chain V} {next : List V → A V Unit}
    (hnext : ∀ vs, Logs Trail.trace P (next vs)) (last : Bool) (f : Ref) (args : List V) {b : Body V}
    (hrej : b.callsReject args = true → ∀ e, Logs Trail.trace P (Chain.reject c e)) :
    Logs Trail.trace P (Chain.runBody next c last f args b) := by
  cases b with
  | accRej code => exact Chain.exec_logs hnil happ hnext f (fun h => hrej h _)
  | rej r code =>
    exact Logs.bind happ (Chain.exec_logs hnil happ hnext f (fun h => hrej h _))
      (fun _ => Chain.callbody_logs hnil hnext _ _ r _)
  | noFun r code => exact Chain.callbody_logs hnil hnext _ _ r _

/-- a property of calls that those of every stage have -/
theorem Chain.run_logs_every {c : Chain V} (hbody : ∀ s ∈ c, ∀ a, P [.body s.this a] none)
    (hrej : ∀ pre s post, c = pre ++ s :: post → ∀ b, Logs Trail.trace P (Chain.reject (s :: post) b))
    (args : List V) : Logs Trail.trace P (Chain.run c args) := by
  induction c generalizing args with
  | nil => exact Logs.pure hnil ()
  | cons s rest ih =>
    refine Logs.bind happ (Logs.modify (l := [.body s.this args]) (fun t => rfl)
      (hbody s (List.mem_cons_self ..) args)) (fun _ => ?_)
    refine Chain.runBody_logs hnil happ (ih ?_ ?_) _ _ args (fun _ => hrej [] s rest rfl)
    · exact fun s' hs' => hbody s' (List.mem_cons_of_mem _ hs')
    · exact fun pre s' post hc => hrej (s :: pre) s' post (by rw [hc]; rfl)

end

end Future
end Pharoah
