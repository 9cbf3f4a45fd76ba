import Pharoah.Future.Chain

/-!
# Futures: the code on a heap is the run along the list

`OnHeap H w t` says that the world `w` is the heap `H` with the changing fields of the trail `t`.
Every function of `Pharoah.Future.Run` is matched by the function of `Chain` with its name, and
`runN_chain` puts them together: **on a linked chain, `runN` and `Chain.run` start in related
states and end in related results**, as soon as the bound on nested calls covers the chain.
-/

namespace Pharoah
namespace Future

open Prog

section
variable {V : Type} {H : Heap V}

def OnHeap (H : Heap V) (w : World V) (t : Trail V) : Prop := w = t.world H

theorem deref_world {f : Ref} {F : Object V} (hF : H[f]? = some F) (t : Trail V) :
    deref f (t.world H)
      = .ok { F with errored := t.errored f, value := t.value f } (t.world H) := by
  unfold deref
  rw [Trail.get_world, hF]
  rfl

theorem deref_bind {α : Type} {f : Ref} {F : Object V} (hF : H[f]? = some F) (t : Trail V)
    (k : Object V → M V α) :
    (deref f >>= k) (t.world H)
      = k { F with errored := t.errored f, value := t.value f } (t.world H) :=
  bind_ok (deref_world hF t)

theorem sim_setErrored (f : Ref) : Sim (OnHeap H) (setErrored f) (modify (·.setErrored f)) := by
  apply Sim.modify
  rintro _ t rfl
  exact t.world_setErrored H f

theorem sim_setValue (f : Ref) (vs : List V) :
    Sim (OnHeap H) (setValue f vs) (modify (·.setValue f vs)) := by
  apply Sim.modify
  rintro _ t rfl
  exact t.world_setValue H f vs

theorem sim_emit (e : Event V) : Sim (OnHeap H) (emit e) (modify (·.emit e)) := by
  apply Sim.modify
  rintro _ t rfl
  rfl

theorem sim_add (k : Task V) : Sim (OnHeap H) (add k) (modify (·.add k)) := by
  apply Sim.modify
  rintro _ t rfl
  rfl

/-! ## the reject path -/

theorem sim_errbody {x : Ref} (hx : H[x]? = some { kind := .except }) :
    Sim (OnHeap H) (errbody x []) (modify (·.emit (.handler x []))) := by
  rintro _ t rfl
  unfold errbody
  rw [deref_bind hx]
  exact sim_emit _ _ t rfl

/-- a forwarding closure over the first future of a linked chain -/
theorem sim_forward (c : Chain V) (hc : Linked H c) (n : Nat) (hn : c.length ≤ n) :
    ∀ s ∈ c.head?, Sim (OnHeap H) (forward n (.forward s.this)) (Chain.forward c) := by
  induction c generalizing n with
  | nil => intro s hs; cases hs
  | cons s rest ih =>
    obtain ⟨⟨F, hF⟩, hrest⟩ := hc
    intro s' hs'
    obtain rfl : s = s' := by simpa using hs'
    cases n with
    | zero => exact absurd hn (by simp)
    | succ n =>
      rintro _ t rfl
      unfold forward
      rw [deref_bind hF.at_this]
      have hslot := hF.slot
      unfold Chain.forward Chain.caught
      cases hs : s.slot with
      | empty =>
        rw [hs] at hslot
        simp only [show F.nxtForward = none from hslot]
        exact Sim.pure () _ t rfl
      | handler x =>
        rw [hs] at hslot
        simp only [show F.nxtForward = _ from hslot.1]
        unfold forward
        exact sim_errbody hslot.2 _ t rfl
      | next =>
        rw [hs] at hslot
        obtain ⟨s', hs', hfw⟩ := hslot
        simp only [hfw]
        exact ih hrest n (by simpa using hn) s' hs' _ t rfl

theorem sim_rejectOn {s : Stage V} {rest : Chain V} (hc : Linked H (s :: rest)) (n : Nat)
    (hn : rest.length ≤ n) (es : List V) :
    Sim (OnHeap H) (rejectOn n s.this es) (match s.slot with
      | .empty => throw .badFunctionCall
      | _ => Chain.forward (s :: rest)) := by
  obtain ⟨⟨F, hF⟩, hrest⟩ := hc
  rintro _ t rfl
  unfold rejectOn
  rw [deref_bind hF.at_this]
  simp only [hF.nxtReject]
  have hslot := hF.slot
  unfold Chain.forward Chain.caught
  cases hs : s.slot with
  | empty =>
    rw [hs] at hslot
    simp only [show F.nxtForward = none from hslot]
    exact Sim.throw _ _ t rfl
  | handler x =>
    rw [hs] at hslot
    simp only [show F.nxtForward = _ from hslot.1]
    unfold forward
    exact sim_errbody hslot.2 _ t rfl
  | next =>
    rw [hs] at hslot
    obtain ⟨s', hs', hfw⟩ := hslot
    simp only [hfw]
    exact sim_forward rest hrest n hn s' hs' _ t rfl

theorem sim_rejectfun {s : Stage V} {rest : Chain V} (hc : Linked H (s :: rest)) (n : Nat)
    (hn : rest.length ≤ n) (hasRej : Bool) (es : List V) :
    Sim (OnHeap H) (rejectfun n s.this hasRej es) (Chain.reject (s :: rest) hasRej) := by
  have h := sim_rejectOn hc n hn es
  unfold rejectfun Chain.reject
  cases hasRej with
  | true => exact Sim.bind (sim_setErrored s.this) (fun _ => h)
  | false =>
    intro w t hR
    exact h w t hR

/-! ## the accept path -/

section
variable {s : Stage V} {rest : Chain V} (hc : Linked H (s :: rest))
  {call : Ref → List V → M V Unit} {next : List V → A V Unit}
  (hcall : ∀ s' ∈ rest.head?, ∀ vs, Sim (OnHeap H) (call s'.this vs) (next vs))
  (hnext : rest = [] → ∀ vs, next vs = pure ())

include hc hcall hnext

theorem sim_acceptfun (vs : List V) :
    Sim (OnHeap H) (acceptfun call s.this vs) (next vs) := by
  obtain ⟨⟨F, hF⟩, -⟩ := hc
  rintro _ t rfl
  unfold acceptfun
  rw [deref_bind hF.at_this]
  cases rest with
  | nil =>
    simp only [hF.nxtAccept, List.head?_nil, Option.map_none]
    rw [hnext rfl]
    exact Sim.pure () _ t rfl
  | cons s' rest =>
    simp only [hF.nxtAccept, List.head?_cons, Option.map_some]
    exact hcall s' rfl vs _ t rfl

theorem sim_exec (n : Nat) (hn : rest.length ≤ n) {acc : Bool} (code : List (Stmt V acc)) :
    Sim (OnHeap H) (exec call n s.this code) (Chain.exec next (s :: rest) s.this code) := by
  induction code with
  | nil => exact Sim.pure ()
  | cons st code ih =>
    cases st with
    | accept ha vs => exact Sim.bind (sim_acceptfun hc hcall hnext vs) (fun _ => ih)
    | reject es => exact Sim.bind (sim_rejectfun hc n hn _ es) (fun _ => ih)
    | add task => exact Sim.bind (sim_add _) (fun _ => ih)

variable [Movable V]

theorem sim_handle_bodyret (r : Ret) :
    Sim (OnHeap H) (handle_bodyret call s.this r)
      (Chain.handle_bodyret next rest.isEmpty s.this r) := by
  obtain ⟨⟨F, hF⟩, -⟩ := hc
  rintro _ t rfl
  unfold handle_bodyret Chain.handle_bodyret
  rw [deref_bind hF.at_this, get_bind]
  simp only
  cases ht : t.errored s.this with
  | true => exact Sim.pure () _ t rfl
  | false =>
    cases rest with
    | nil =>
      simp only [hF.nxtAccept, List.head?_nil, Option.map_none]
      exact Sim.pure () _ t rfl
    | cons s' rest =>
      simp only [hF.nxtAccept, List.head?_cons, Option.map_some]
      have hgo := hcall s' rfl (t.value s.this)
      cases r with
      | multi => exact Sim.bind (sim_setValue _ _) (fun _ => hgo) _ t rfl
      | single => exact hgo _ t rfl
      | void => exact hgo _ t rfl

theorem sim_callbody (r : Ret) (vs : List V) :
    Sim (OnHeap H) (callbody call s.this r vs)
      (Chain.callbody next rest.isEmpty s.this r vs) := by
  have h := sim_handle_bodyret hc hcall hnext r
  cases r with
  | void => exact Sim.pure ()
  | multi => exact Sim.bind (sim_setValue _ _) (fun _ => h)
  | single => exact Sim.bind (sim_setValue _ _) (fun _ => h)

theorem sim_runBody (n : Nat) (hn : rest.length ≤ n) (args : List V) (b : Body V) :
    Sim (OnHeap H) (runBody call n s.this args b)
      (Chain.runBody next (s :: rest) rest.isEmpty s.this args b) := by
  cases b with
  | accRej code => exact sim_exec hc hcall hnext n hn _
  | rej r code =>
    exact Sim.bind (sim_exec hc hcall hnext n hn _) (fun _ => sim_callbody hc hcall hnext r _)
  | noFun r code => exact sim_callbody hc hcall hnext r _

end

variable [Movable V]

/-- **On a linked chain the code runs along the list.** -/
theorem runN_chain (c : Chain V) (hc : Linked H c) (n : Nat) (hn : c.length ≤ n) :
    ∀ s ∈ c.head?, ∀ args, Sim (OnHeap H) (runN n s.this args) (Chain.run c args) := by
  induction c generalizing n with
  | nil => intro s hs; cases hs
  | cons s rest ih =>
    intro s' hs' args
    obtain rfl : s = s' := by simpa using hs'
    cases n with
    | zero => exact absurd hn (by simp)
    | succ n =>
      have hn' : rest.length ≤ n := by simpa using hn
      obtain ⟨F, hF⟩ := hc.1
      rintro _ t rfl
      unfold runN Chain.run
      rw [deref_bind hF.at_this]
      simp only [hF.kind]
      refine Sim.bind (sim_emit _) (fun _ => ?_) _ t rfl
      exact sim_runBody hc (fun s' hs' vs => ih hc.2 n hn' s' hs' vs)
        (fun he vs => by rw [he]; rfl) n hn' args s.body

/-- The statements of the first future of a linked chain, in a body or in a queued closure. -/
theorem exec_chain {s : Stage V} {rest : Chain V} (hc : Linked H (s :: rest)) (n : Nat)
    (hn : rest.length ≤ n) {acc : Bool} (code : List (Stmt V acc)) :
    Sim (OnHeap H) (exec (runN n) n s.this code)
      (Chain.exec (Chain.run rest) (s :: rest) s.this code) :=
  sim_exec hc (fun s' hs' vs => runN_chain rest hc.2 n hn s' hs' vs)
    (fun he vs => by rw [he]; rfl) n hn code

end

end Future
end Pharoah
