import Pharoah.Future.Links

/-!
# Futures: running a chain by name

A chain runs in the same way wherever its futures stand, so a run can be followed on the named
chain, in a state that is given by name as well.

* `Renamed ρ S tr qu τ t`   `t` is the state `τ` in the places `ρ`, after the calls `tr`;
* `Chain.run_rename`        **a chain runs the same way in other places**;
* `Stands past τ t`         the state `t` of the heap that `past` built is `τ`, by name;
* `byName past calls`       the calls of a run, with the names of the futures and handlers.

`named_run` and `named_fire`: a run of the head, and a queued closure, **call what they call on the
named chain**.
-/

namespace Pharoah
namespace Future

open Prog

section
variable {V : Type}

/-! ## a chain in other places -/

def Event.rename (ρ : Name → Ref) : Event V → Event V
  | .body n args => .body (ρ n) args
  | .handler x args => .handler (ρ x) args

def Task.rename (ρ : Name → Ref) (k : Task V) : Task V := { k with this := ρ k.this }

/-- The state `t` in the places, and the state `τ` by name; `tr` and `qu` were there before. -/
structure Renamed (ρ : Name → Ref) (S : Name → Prop) (tr : List (Event V)) (qu : List (Task V))
    (τ t : Trail V) : Prop where
  errored : ∀ n, S n → t.errored (ρ n) = τ.errored n
  value : ∀ n, S n → t.value (ρ n) = τ.value n
  trace : t.trace = tr ++ τ.trace.map (Event.rename ρ)
  dyn_tq : t.dyn_tq = qu ++ τ.dyn_tq.map (Task.rename ρ)

theorem caught_rename (ρ : Name → Ref) (c : Chain V) :
    Chain.caught (c.map (Stage.rename ρ)) = (Chain.caught c).map ρ := by
  induction c with
  | nil => rfl
  | cons s rest ih =>
    rw [List.map_cons]
    unfold Chain.caught
    have hslot : (s.rename ρ).slot = s.slot.rename ρ := rfl
    rw [hslot]
    cases s.slot with
    | empty => rfl
    | next => exact ih
    | handler x => rfl

theorem update_rename {α : Type} {ρ : Name → Ref} {S : Name → Prop}
    (hinj : ∀ n m, S n → S m → ρ n = ρ m → n = m) {u : Ref → α} {v : Name → α}
    (h : ∀ n, S n → u (ρ n) = v n) {f : Name} (hf : S f) (a : α) :
    ∀ n, S n → Function.update u (ρ f) a (ρ n) = Function.update v f a n := by
  intro n hn
  by_cases e : n = f
  · subst e
    rw [Function.update_self, Function.update_self]
  · rw [Function.update_of_ne e, Function.update_of_ne fun e' => e (hinj n f hn hf e')]
    exact h n hn

section
variable {ρ : Name → Ref} {S : Name → Prop} {tr : List (Event V)} {qu : List (Task V)}

theorem Renamed.emit {τ t : Trail V} (h : Renamed ρ S tr qu τ t) (e : Event V) :
    Renamed ρ S tr qu (τ.emit e) (t.emit (e.rename ρ)) := by
  refine ⟨h.errored, h.value, ?_, h.dyn_tq⟩
  show t.trace ++ [e.rename ρ] = tr ++ (τ.trace ++ [e]).map (Event.rename ρ)
  rw [h.trace, List.map_append, List.append_assoc]
  rfl

theorem Renamed.add {τ t : Trail V} (h : Renamed ρ S tr qu τ t) (k : Task V) :
    Renamed ρ S tr qu (τ.add k) (t.add (k.rename ρ)) := by
  refine ⟨h.errored, h.value, h.trace, ?_⟩
  show t.dyn_tq ++ [k.rename ρ] = qu ++ (τ.dyn_tq ++ [k]).map (Task.rename ρ)
  rw [h.dyn_tq, List.map_append, List.append_assoc]
  rfl

variable (hinj : ∀ n m, S n → S m → ρ n = ρ m → n = m)
include hinj

theorem Renamed.setValue {τ t : Trail V} (h : Renamed ρ S tr qu τ t) {f : Name} (hf : S f)
    (vs : List V) : Renamed ρ S tr qu (τ.setValue f vs) (t.setValue (ρ f) vs) :=
  ⟨h.errored, update_rename hinj h.value hf vs, h.trace, h.dyn_tq⟩

theorem Chain.reject_rename {s : Stage V} (rest : Chain V) (hs : S s.this) (b : Bool) :
    Sim (Renamed ρ S tr qu) (Chain.reject (s :: rest) b)
      (Chain.reject ((s :: rest).map (Stage.rename ρ)) b) := by
  have hfw : Sim (Renamed ρ S tr qu) (Chain.forward (s :: rest))
      (Chain.forward ((s :: rest).map (Stage.rename ρ))) := by
    unfold Chain.forward
    rw [caught_rename]
    cases Chain.caught (s :: rest) with
    | none => exact Sim.pure ()
    | some x => exact Sim.modify fun τ t h => h.emit (.handler x [])
  refine Sim.bind (Sim.modify fun τ t h => ?_) (fun _ => ?_)
  · cases b with
    | false => exact h
    | true => exact ⟨update_rename hinj h.errored hs true, h.value, h.trace, h.dyn_tq⟩
  · have hslot : (s.rename ρ).slot = s.slot.rename ρ := rfl
    rw [hslot]
    cases s.slot with
    | empty => exact Sim.throw _
    | next => exact hfw
    | handler x => exact hfw

theorem Chain.exec_rename {next next' : List V → A V Unit}
    (hnext : ∀ vs, Sim (Renamed ρ S tr qu) (next vs) (next' vs)) {s : Stage V} (rest : Chain V)
    (hs : S s.this) (f : Name) {acc : Bool} (code : List (Stmt V acc)) :
    Sim (Renamed ρ S tr qu) (Chain.exec next (s :: rest) f code)
      (Chain.exec next' ((s :: rest).map (Stage.rename ρ)) (ρ f) code) := by
  induction code with
  | nil => exact Sim.pure ()
  | cons st code ih =>
    cases st with
    | accept h vs => exact Sim.bind (hnext vs) (fun _ => ih)
    | reject es => exact Sim.bind (Chain.reject_rename hinj rest hs _) (fun _ => ih)
    | add task => exact Sim.bind (Sim.modify fun τ t h => h.add ⟨acc, f, task⟩) (fun _ => ih)

variable [Movable V]

theorem Chain.callbody_rename {next next' : List V → A V Unit}
    (hnext : ∀ vs, Sim (Renamed ρ S tr qu) (next vs) (next' vs)) (last : Bool) {f : Name}
    (hf : S f) (r : Ret) (vs : List V) :
    Sim (Renamed ρ S tr qu) (Chain.callbody next last f r vs)
      (Chain.callbody next' last (ρ f) r vs) := by
  have hret : ∀ r, Sim (Renamed ρ S tr qu) (Chain.handle_bodyret next last f r)
      (Chain.handle_bodyret next' last (ρ f) r) := by
    intro r τ t h
    unfold Chain.handle_bodyret
    rw [get_bind, get_bind, h.errored f hf, h.value f hf]
    cases τ.errored f with
    | true => exact Sim.pure () τ t h
    | false =>
      cases last with
      | true => exact Sim.pure () τ t h
      | false =>
        cases r with
        | multi =>
          exact Sim.bind (Sim.modify fun τ t h => h.setValue hinj hf _) (fun _ => hnext _) τ t h
        | single => exact hnext _ τ t h
        | void => exact hnext _ τ t h
  cases r with
  | void => exact Sim.pure ()
  | single => exact Sim.bind (Sim.modify fun τ t h => h.setValue hinj hf vs) (fun _ => hret _)
  | multi => exact Sim.bind (Sim.modify fun τ t h => h.setValue hinj hf vs) (fun _ => hret _)

/-- **A chain runs the same way in other places.** -/
theorem Chain.run_rename {c : Chain V} (hc : ∀ s ∈ c, S s.this) (args : List V) :
    Sim (Renamed ρ S tr qu) (Chain.run c args) (Chain.run (c.map (Stage.rename ρ)) args) := by
  induction c generalizing args with
  | nil => exact Sim.pure ()
  | cons s rest ih =>
    have hs := hc s (List.mem_cons_self ..)
    have hnext := ih fun s' hs' => hc s' (List.mem_cons_of_mem _ hs')
    have hlast : (rest.map (Stage.rename ρ)).isEmpty = rest.isEmpty := by cases rest <;> rfl
    rw [List.map_cons]
    unfold Chain.run
    refine Sim.bind (Sim.modify fun τ t h => h.emit (.body s.this args)) (fun _ => ?_)
    rw [hlast]
    show Sim _ (Chain.runBody _ _ _ _ _ s.body) (Chain.runBody _ _ _ _ _ s.body)
    cases s.body with
    | accRej code => exact Chain.exec_rename hinj hnext rest hs s.this (code args)
    | rej r code =>
      exact Sim.bind (Chain.exec_rename hinj hnext rest hs s.this _)
        (fun _ => Chain.callbody_rename hinj hnext _ hs r _)
    | noFun r code => exact Chain.callbody_rename hinj hnext _ hs r _

end

/-! ## the named chain -/

variable {past : List (Call V)}

theorem mem_named {ns : List Name} {s : Stage V} (hs : s ∈ named past ns) :
    s.this ∈ ns ∧ s.slot = slotAt past s.this ∧ s.nxtF = handlerAt past s.this := by
  obtain ⟨n, hn, h1⟩ := List.mem_filterMap.mp hs
  obtain ⟨b, -, rfl⟩ := Option.map_eq_some_iff.mp h1
  exact ⟨hn, rfl, rfl⟩

/-- a handler that a reject reaches is in the slot of a future on the way -/
theorem caught_slot {c : Chain V} {x : Ref} (hx : Chain.caught c = some x) :
    ∃ s ∈ c, s.slot = .handler x := by
  induction c with
  | nil => cases hx
  | cons s rest ih =>
    unfold Chain.caught at hx
    cases hslot : s.slot with
    | empty => rw [hslot] at hx; cases hx
    | next =>
      rw [hslot] at hx
      obtain ⟨s', hs', h1⟩ := ih hx
      exact ⟨s', List.mem_cons_of_mem _ hs', h1⟩
    | handler y =>
      rw [hslot] at hx
      cases hx
      exact ⟨s, List.mem_cons_self .., hslot⟩

/-- a handler in the slot of a future is the one that was attached last -/
theorem handlerAt_slot {n x : Name} (h : slotAt past n = .handler x) :
    handlerAt past n = some x := by
  have hon : ∀ c ∈ callsOn past n, c.on = some n := fun c hc => by
    simpa using (List.mem_filter.mp hc).2
  rw [← slotAt_callsOn] at h
  rw [← handlerAt_callsOn]
  cases hl : callsOn past n with
  | nil =>
    rw [hl] at h
    cases h
  | cons c rest =>
    have hc := hon c (hl ▸ List.mem_cons_self ..)
    rw [hl, slotAt, List.find?_cons_of_pos (by simpa using hc)] at h
    cases c with
    | except g y =>
      cases h
      obtain rfl : g = n := Option.some.inj hc
      simp [handlerAt]
    | bound m vs => cases h
    | unbound m => cases h
    | then_ g b m => cases h

theorem Shaped.of_rename {ρ : Name → Ref} {c : Chain V} (h : Shaped (c.map (Stage.rename ρ)))
    (hx : ∀ s ∈ c, ∀ x, s.slot = .handler x → s.nxtF = some x) : Shaped c := by
  induction c with
  | nil => trivial
  | cons s rest ih =>
    obtain ⟨h1, h2⟩ := h
    refine ⟨?_, ih h2 fun s' hs' => hx s' (List.mem_cons_of_mem _ hs')⟩
    have hslot : (s.rename ρ).slot = s.slot.rename ρ := rfl
    rw [hslot] at h1
    cases hs : s.slot with
    | empty =>
      rw [hs] at h1
      exact ⟨List.map_eq_nil_iff.mp h1.1, Option.map_eq_none_iff.mp h1.2⟩
    | next =>
      rw [hs] at h1
      exact fun e => h1 (List.map_eq_nil_iff.mpr e)
    | handler x => exact hx s (List.mem_cons_self ..) x hs

/-- the calls by name -/
def byName (past : List (Call V)) (calls : List (Event V)) : List (Event V) :=
  calls.map (Event.rename (nameAt past))

theorem byName_rename {l : List (Event V)} (hl : ∀ e ∈ l, e.ref ∈ past.map Call.name) :
    byName past (l.map (Event.rename (place past))) = l := by
  unfold byName
  rw [List.map_map]
  conv_rhs => rw [← List.map_id l]
  apply List.map_congr_left
  intro e he
  have h1 := nameAt_place (hl e he)
  cases e with
  | body n args => exact congrArg (Event.body · args) h1
  | handler x args => exact congrArg (Event.handler · args) h1

/-- In the heap that `past` built, `t` is the state `τ` in which nothing has been called yet. -/
structure Stands (past : List (Call V)) (τ t : Trail V) : Prop where
  errored : ∀ n ∈ past.map Call.name, t.errored (place past n) = τ.errored n
  value : ∀ n ∈ past.map Call.name, t.value (place past n) = τ.value n
  trace : τ.trace = []
  dyn_tq : τ.dyn_tq = []

theorem Stands.renamed {τ t : Trail V} (h : Stands past τ t) :
    Renamed (place past) (· ∈ past.map Call.name) t.trace t.dyn_tq τ t :=
  ⟨h.errored, h.value, by rw [h.trace]; simp, by rw [h.dyn_tq]; simp⟩

/-- the first state -/
theorem Made.stands {cs : List (List Name)} (hm : Made past cs) :
    Stands past ⟨fun _ => false, valueAt past, [], []⟩ (World.init (build past)).trail := by
  refine ⟨fun n hn => ?_, fun n hn => ?_, rfl, rfl⟩
  · obtain ⟨F, hF, -⟩ := hm.stocked n hn
    show ((build past)[place past n]?).elim false Object.errored = false
    rw [hF]
    exact hm.built.wf.errored _ F hF
  · obtain ⟨F, hF, -, hv⟩ := hm.stocked n hn
    show ((build past)[place past n]?).elim [] Object.value = valueAt past n
    rw [hF]
    exact hv

/-- what a program shows, if it does the same by name -/
theorem Stands.seen {τ t : Trail V} (h : Stands past τ t) {m m' : A V Unit}
    (hsim : ∀ tr qu, Sim (Renamed (place past) (· ∈ past.map Call.name) tr qu) m m')
    (hlogs : Logs Trail.trace (fun l _ => ∀ e ∈ l, e.ref ∈ past.map Call.name) m) :
    byName past (t.seen m').calls = (τ.seen m).calls ∧
      (t.seen m').result = (τ.seen m).result := by
  have hrel := hsim t.trace t.dyn_tq τ t h.renamed
  obtain ⟨l, hl, hmem⟩ := hlogs τ
  have h1 : (final (m' t)).trace = t.trace ++ l.map (Event.rename (place past)) := by
    rw [hrel.final.trace, hl, h.trace, List.nil_append]
  refine ⟨?_, (outcome_eq hrel).symm⟩
  rw [Trail.seen_calls h1, Trail.seen_calls hl, byName_rename hmem]

/-! ## running a construction -/

theorem placed_mem (past : List (Call V)) {cs : List (List Name)} {hd : Name} {ns : List Name}
    (hc : hd :: ns ∈ cs) : place past hd :: ns.map (place past) ∈ placed past cs :=
  List.mem_map_of_mem (f := List.map (place past)) hc

section
variable {cs : List (List Name)} (hm : Made past cs) {hd : Name} {ns : List Name}
  (hc : hd :: ns ∈ cs)
include hm hc

theorem Made.chain_mem : ∀ n ∈ hd :: ns, n ∈ past.map Call.name :=
  fun n hn => hm.mem n (List.mem_flatten.mpr ⟨_, hc, hn⟩)

/-- a chain of the heap and its names -/
theorem Made.chain_eq : chain (build past) (ns.map (place past))
    = (named past ns).map (Stage.rename (place past)) :=
  chain_build hm fun n hn => hm.chain_mem hc n (List.mem_cons_of_mem _ hn)

/-- the futures and the handlers of the named chain have names -/
theorem Made.named_mem : (∀ s ∈ named past ns, s.this ∈ past.map Call.name) ∧
    ∀ pre c, named past ns = pre ++ c → ∀ x, Chain.caught c = some x → x ∈ past.map Call.name := by
  refine ⟨fun s hs => hm.chain_mem hc _ (List.mem_cons_of_mem _ (mem_named hs).1), ?_⟩
  intro pre c hs x hx
  obtain ⟨s, hsc, hslot⟩ := caught_slot hx
  obtain ⟨-, h1, -⟩ := mem_named (hs ▸ List.mem_append_right pre hsc : s ∈ named past ns)
  exact List.mem_map_of_mem (f := Call.name) (slotAt_mem (h1.symm.trans hslot))

theorem Made.named_shaped : Shaped (named past ns) := by
  have h1 := hm.built.shaped (placed_mem past hc)
  rw [hm.chain_eq hc] at h1
  refine h1.of_rename fun s hs x hx => ?_
  obtain ⟨-, h2, h3⟩ := mem_named hs
  rw [h3]
  exact handlerAt_slot (h2.symm.trans hx)

theorem Made.named_nodup : ((named past ns).map Stage.this).Nodup := by
  have h1 := hm.built.nodup_chain (placed_mem past hc)
  have h2 : ((named past ns).map (Stage.rename (place past))).map Stage.this
      = ((named past ns).map Stage.this).map (place past) := by
    rw [List.map_map, List.map_map]
    rfl
  rw [hm.chain_eq hc, h2] at h1
  exact h1.of_map _

variable [Movable V]

theorem Made.run_names {pre c : Chain V} (hs : named past ns = pre ++ c) (args : List V) :
    Logs Trail.trace (fun l _ => ∀ e ∈ l, e.ref ∈ past.map Call.name) (Chain.run c args) := by
  obtain ⟨h1, h2⟩ := hm.named_mem hc
  have happ : ∀ (l l' : List (Event V)) (r : Option Err), (∀ e ∈ l, e.ref ∈ past.map Call.name) →
      (∀ e ∈ l', e.ref ∈ past.map Call.name) → ∀ e ∈ l ++ l', e.ref ∈ past.map Call.name :=
    fun l l' _ h h' e he => (List.mem_append.mp he).elim (h e) (h' e)
  refine Chain.run_logs_every (by simp) happ (fun s hsc a e he => ?_) (fun pre' s post hcs b => ?_) args
  · rw [List.mem_singleton.mp he]
    exact h1 s (hs ▸ List.mem_append_right pre hsc)
  · refine Chain.reject_logs (by simp) (by simp) (fun x hx e he => ?_) b
    rw [List.mem_singleton.mp he]
    exact h2 (pre ++ pre') (s :: post) (by rw [hs, hcs, List.append_assoc]) x hx

/-- the start of the head, by name -/
theorem Made.start_sim (k : Kind V) (args : List V) (tr : List (Event V)) (qu : List (Task V)) :
    Sim (Renamed (place past) (· ∈ past.map Call.name) tr qu)
      (Chain.start k hd (named past ns) args)
      (Chain.start k (place past hd) ((named past ns).map (Stage.rename (place past))) args) := by
  have hrun : ∀ args, Sim (Renamed (place past) (· ∈ past.map Call.name) tr qu)
      (Chain.run (named past ns) args)
      (Chain.run ((named past ns).map (Stage.rename (place past))) args) :=
    Chain.run_rename (fun _ _ => Future.place_inj) (hm.named_mem hc).1
  have hhd := hm.chain_mem hc hd (List.mem_cons_self ..)
  cases k with
  | unbound => exact hrun args
  | body b => exact Sim.pure ()
  | except => exact Sim.pure ()
  | bound =>
    cases hn : named past ns with
    | nil => exact Sim.pure ()
    | cons s rest =>
      rw [hn] at hrun
      intro τ t h
      show Rel _ ((do
          modify (·.setValue hd ((τ.value hd).map Movable.movedFrom))
          Chain.run (s :: rest) (τ.value hd) : A V Unit) τ) ((do
          modify (·.setValue (place past hd) ((t.value (place past hd)).map Movable.movedFrom))
          Chain.run ((s :: rest).map (Stage.rename (place past))) (t.value (place past hd))
            : A V Unit) t)
      rw [h.value hd hhd]
      exact Sim.bind (Sim.modify fun τ t h =>
        h.setValue (fun _ _ => Future.place_inj) hhd _) (fun _ => hrun _) τ t h

/-- **A run of the head calls what it calls by name.** -/
theorem named_run {k : Kind V} (hk : kindAt past hd = some k) {τ t : Trail V} (h : Stands past τ t)
    (args : List V) :
    byName past (Future.seen (t.world (build past)) (run (place past hd) args)).calls
        = (τ.seen (Chain.start k hd (named past ns) args)).calls ∧
      (Future.seen (t.world (build past)) (run (place past hd) args)).result
        = (τ.seen (Chain.start k hd (named past ns) args)).result := by
  obtain ⟨F, hF, hkF, -⟩ := hm.stocked hd (hm.chain_mem hc hd (List.mem_cons_self ..))
  obtain rfl : k = F.kind := Option.some.inj (hk.symm.trans hkF)
  rw [(seen_run hm.built (placed_mem past hc) hF args t).1, hm.chain_eq hc]
  refine h.seen (hm.start_sim hc F.kind args) ?_
  have hs : named past ns = [] ++ named past ns := rfl
  have hrun := hm.run_names hc hs
  cases F.kind with
  | unbound => exact hrun args
  | body b => exact Logs.pure (by simp) ()
  | except => exact Logs.pure (by simp) ()
  | bound =>
    cases hn : named past ns with
    | nil => exact Logs.pure (by simp) ()
    | cons s rest =>
      rw [hn] at hrun
      intro τ
      exact hrun (τ.value hd) (τ.setValue hd ((τ.value hd).map Movable.movedFrom))

/-- **A queued closure calls what it calls by name.** -/
theorem named_fire {pre post : Chain V} {s : Stage V} (hs : named past ns = pre ++ s :: post)
    {acc : Bool} (code : List (Stmt V acc)) {τ t : Trail V} (h : Stands past τ t) :
    byName past (Future.seen (t.world (build past)) (fire ⟨acc, place past s.this, code⟩)).calls
        = (τ.seen (Chain.exec (Chain.run post) (s :: post) s.this code)).calls ∧
      (Future.seen (t.world (build past)) (fire ⟨acc, place past s.this, code⟩)).result
        = (τ.seen (Chain.exec (Chain.run post) (s :: post) s.this code)).result := by
  have hch : chain (build past) (ns.map (place past)) = pre.map (Stage.rename (place past))
      ++ s.rename (place past) :: post.map (Stage.rename (place past)) := by
    rw [hm.chain_eq hc, hs, List.map_append, List.map_cons]
  obtain ⟨h1, h2⟩ := hm.named_mem hc
  have hpost : named past ns = (pre ++ [s]) ++ post := by rw [hs]; simp
  have hmem : ∀ s' ∈ s :: post, s'.this ∈ past.map Call.name := fun s' hs' =>
    h1 s' (hs ▸ List.mem_append_right pre hs')
  rw [show place past s.this = (s.rename (place past)).this from rfl,
    seen_fire hm.built (placed_mem past hc) hch code t]
  refine h.seen (fun tr qu => ?_) ?_
  · refine Chain.exec_rename (fun _ _ => Future.place_inj) (fun vs => ?_) post
      (hmem s (List.mem_cons_self ..)) s.this code
    exact Chain.run_rename (fun _ _ => Future.place_inj)
      (fun s' hs' => hmem s' (List.mem_cons_of_mem _ hs')) vs
  · refine Chain.exec_logs (by simp) (fun l l' r h h' e he => (List.mem_append.mp he).elim (h e) (h' e))
      (hm.run_names hc hpost) s.this (fun _ => ?_)
    refine Chain.reject_logs (by simp) (by simp) (fun x hx e he => ?_) _
    rw [List.mem_singleton.mp he]
    exact h2 pre (s :: post) hs x hx

end

end

end Future
end Pharoah
