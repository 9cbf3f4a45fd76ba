import Pharoah.Future.Compare

/-!
# Futures: settling later

Several chains in one heap, each run once, whose `ACC_REJ` bodies may put the one call of their
accept or reject function into a closure on the task queue.

* `Stmt.settle?`, `Body.settles?`   how a statement, or a body, settles in the end;
* `told c args`        the calls of a run of `c` in which every body settles before it returns;
* `Wait`               a chain whose run has stopped at a future with a queued closure;
* `Chain.run_yields`, `Chain.exec_yields`   a run, or a closure, makes some of the calls `told`
                       and leaves the rest to at most one closure;
* `perform ms`         the chains are started and the queue is worked off in the order `ms`.

`deferred_eq_immediate`: **in every order each chain makes the calls of its immediate version**.
-/

namespace Pharoah
namespace Future

open Prog

section
variable {V : Type}

/-! ## how a body settles in the end -/

/-- `add` of a closure settles as its one statement does. -/
def Stmt.settle? {acc : Bool} : Stmt V acc → Option (Settle V)
  | .accept _ vs => some (.accept vs)
  | .reject es => some (.reject es)
  | .add [st] => st.settle?
  | .add _ => none

/-- how many closures it takes -/
def Stmt.delay {acc : Bool} : Stmt V acc → Nat
  | .add [st] => st.delay + 1
  | _ => 0

def Body.settles? (b : Body V) (args : List V) : Option (Settle V) :=
  match b with
  | .accRej code =>
    match code args with
    | [st] => st.settle?
    | _ => none
  | b => b.settle? args

def Body.delay (b : Body V) (args : List V) : Nat :=
  match b with
  | .accRej code =>
    match code args with
    | [st] => st.delay
    | _ => 0
  | _ => 0

/-! ## the calls of a run without delays -/

def told : Chain V → List V → List (Event V)
  | [], _ => []
  | s :: rest, args => .body s.this args :: match s.body.settles? args with
    | some (.accept vs) => if s.body.isVoid then [] else told rest vs
    | some (.reject _) => caughtCalls (s :: rest)
    | none => []

/-- the closures of a run -/
def closures : Chain V → List V → Nat
  | [], _ => 0
  | s :: rest, args => s.body.delay args + match s.body.settles? args with
    | some (.accept vs) => if s.body.isVoid then 0 else closures rest vs
    | _ => 0

/-- Every body that runs settles once, and each reject has a handler at or after its future. -/
def Settles : Chain V → List V → Prop
  | [], _ => True
  | s :: rest, args =>
    match s.body.settles? args with
    | some (.accept vs) => s.body.isVoid = false → Settles rest vs
    | some (.reject _) => nearest (s :: rest) ≠ none
    | none => False

/-- the calls about the futures of a chain and their handlers -/
def Chain.owns (c : Chain V) : Event V → Bool
  | .body f _ => c.any fun s => s.this = f
  | .handler x _ => c.any fun s => s.nxtF = some x

/-! ## a run that has stopped

What is to come once the first future of a chain settles: the calls, the closures, and what is
assumed of them. -/

namespace Settle

def told (c : Chain V) : Settle V → List (Event V)
  | .accept vs => Future.told c.tail vs
  | .reject _ => caughtCalls c

def closures (c : Chain V) : Settle V → Nat
  | .accept vs => Future.closures c.tail vs
  | .reject _ => 0

def Settles (c : Chain V) : Settle V → Prop
  | .accept vs => Future.Settles c.tail vs
  | .reject _ => nearest c ≠ none

end Settle

/-- a future whose one settling statement stands in a queued closure -/
structure Wait (V : Type) where
  stage : Stage V
  rest : Chain V
  stmt : Stmt V true
  result : Settle V

namespace Wait

def chain (p : Wait V) : Chain V := p.stage :: p.rest

def task (p : Wait V) : Task V := ⟨true, p.stage.this, [p.stmt]⟩

/-- the calls still to come -/
def told (p : Wait V) : List (Event V) := p.result.told p.chain

/-- the closures still to come, its own included -/
def left (p : Wait V) : Nat := p.stmt.delay + 1 + p.result.closures p.chain

structure Ok (p : Wait V) (t : Trail V) : Prop where
  settle : p.stmt.settle? = some p.result
  errored : ∀ s ∈ p.rest, t.errored s.this = false
  settles : p.result.Settles p.chain

end Wait

/-- From `t` to `t'` the chain `c` has made the calls `evs`, but for those left to `p`; `n` counts
the closures that are left. -/
structure Yields (c : Chain V) (evs : List (Event V)) (n : Nat) (p : Option (Wait V))
    (t t' : Trail V) : Prop where
  calls : ∃ l, t'.trace = t.trace ++ l ∧ (∀ e ∈ l, c.owns e = true) ∧
    evs = l ++ (p.map Wait.told).getD []
  queue : t'.dyn_tq = t.dyn_tq ++ (p.map Wait.task).toList
  left : n = (p.map Wait.left).getD 0
  wait : ∀ q ∈ p, q.Ok t' ∧ ∃ pre, c = pre ++ q.chain
  errored : ∀ u, u ∉ c.map Stage.this → t'.errored u = t.errored u
  value : ∀ u, u ∉ c.map Stage.this → t'.value u = t.value u

theorem Chain.owns_cons (s : Stage V) {c : Chain V} {e : Event V} (h : c.owns e = true) :
    Chain.owns (s :: c) e = true := by
  cases e with
  | body f a => simp only [Chain.owns, List.any_cons, Bool.or_eq_true] at h ⊢; exact .inr h
  | handler x a => simp only [Chain.owns, List.any_cons, Bool.or_eq_true] at h ⊢; exact .inr h

/-- seen from one future further up -/
theorem Yields.weaken {s : Stage V} {rest : Chain V} {evs : List (Event V)} {n : Nat}
    {p : Option (Wait V)} {t t' : Trail V} (h : Yields rest evs n p t t') :
    Yields (s :: rest) evs n p t t' := by
  obtain ⟨l, hl, hown, hevs⟩ := h.calls
  refine ⟨⟨l, hl, fun e he => Chain.owns_cons s (hown e he), hevs⟩, h.queue, h.left,
    fun q hq => ?_, fun u hu => ?_, fun u hu => ?_⟩
  · obtain ⟨hok, pre, hpre⟩ := h.wait q hq
    exact ⟨hok, s :: pre, by rw [hpre]; rfl⟩
  · exact h.errored u (fun hm => hu (List.mem_cons_of_mem _ hm))
  · exact h.value u (fun hm => hu (List.mem_cons_of_mem _ hm))

/-- the first future's body is called, and then the rest happens -/
theorem Yields.call {s : Stage V} {rest : Chain V} {evs : List (Event V)} {n : Nat}
    {p : Option (Wait V)} {t t₁ t' : Trail V} {args : List V}
    (ha : Alike s.this (t.emit (.body s.this args)) t₁) (h : Yields (s :: rest) evs n p t₁ t') :
    Yields (s :: rest) (.body s.this args :: evs) n p t t' := by
  obtain ⟨l, hl, hown, hevs⟩ := h.calls
  refine ⟨⟨.body s.this args :: l, ?_, fun e he => ?_, by rw [hevs]; rfl⟩, ?_, h.left, h.wait,
    fun u hu => ?_, fun u hu => ?_⟩
  · rw [hl, ha.trace]
    simp [Trail.emit]
  · rcases List.mem_cons.mp he with rfl | he
    · simp [Chain.owns]
    · exact hown e he
  · rw [h.queue, ha.dyn_tq]
    rfl
  · rw [h.errored u hu, ha.errored]
    rfl
  · have hne : u ≠ s.this := fun e => hu (by simp [e])
    rw [h.value u hu, ha.value u hne]
    rfl

/-- the run is over -/
theorem Yields.over {c : Chain V} {evs : List (Event V)} {t t' : Trail V}
    (htrace : t'.trace = t.trace ++ evs) (hown : ∀ e ∈ evs, c.owns e = true)
    (hq : t'.dyn_tq = t.dyn_tq) (herr : ∀ u, u ∉ c.map Stage.this → t'.errored u = t.errored u)
    (hval : ∀ u, u ∉ c.map Stage.this → t'.value u = t.value u) :
    Yields c evs 0 none t t' :=
  ⟨⟨evs, htrace, hown, by simp⟩, by simp [hq], rfl, fun q hq => by simp at hq, herr, hval⟩

/-! ## running a chain whose bodies may settle later -/

/-- a handler that is reached stands on a future of the chain -/
theorem Shaped.caught {c : Chain V} (hs : Shaped c) {x : Ref} (hx : Chain.caught c = some x) :
    ∃ s ∈ c, s.nxtF = some x := by
  induction c with
  | nil => cases hx
  | cons s rest ih =>
    obtain ⟨h1, h2⟩ := hs
    unfold Chain.caught at hx
    cases hslot : s.slot with
    | empty => simp [hslot] at hx
    | handler y =>
      rw [hslot] at h1 hx
      cases hx
      exact ⟨s, List.mem_cons_self .., h1⟩
    | next =>
      rw [hslot] at hx
      obtain ⟨s', hs', h3⟩ := ih h2 hx
      exact ⟨s', List.mem_cons_of_mem _ hs', h3⟩

theorem Shaped.owns_caught {c : Chain V} (hs : Shaped c) :
    ∀ e ∈ caughtCalls c, c.owns e = true := by
  intro e he
  unfold caughtCalls at he
  cases hx : Chain.caught c with
  | none => simp [hx] at he
  | some x =>
    obtain rfl : e = .handler x [] := by simpa [hx] using he
    obtain ⟨s, hs', h1⟩ := hs.caught hx
    simp only [Chain.owns, List.any_eq_true]
    exact ⟨s, hs', by simp [h1]⟩

/-- a future with a handler at or after it has its `nxtForward` set -/
theorem Shaped.slot_ne {s : Stage V} {rest : Chain V} (hs : Shaped (s :: rest))
    (hn : nearest (s :: rest) ≠ none) : s.slot ≠ .empty := by
  intro e
  obtain ⟨h1, -⟩ := hs
  rw [e] at h1
  obtain ⟨rfl, h2⟩ := h1
  exact hn (by simp [nearest, h2])

variable [Movable V]

/-- a run of the futures after the first one that goes as told -/
def RestYields (rest : Chain V) : Prop :=
  ∀ (vs : List V) (t : Trail V), Settles rest vs → (∀ s ∈ rest, t.errored s.this = false) →
    ∃ t' p, Chain.run rest vs t = .ok () t' ∧ Yields rest (told rest vs) (closures rest vs) p t t'

/-- the one settling statement of a body, or of a queued closure -/
theorem Chain.stmt_yields {s : Stage V} {rest : Chain V} (hsh : Shaped (s :: rest))
    (hrest : RestYields rest) {st : Stmt V true} {r : Settle V} (hst : st.settle? = some r)
    (hr : r.Settles (s :: rest)) {t : Trail V} (he : ∀ s' ∈ rest, t.errored s'.this = false) :
    ∃ t' p, Chain.exec (Chain.run rest) (s :: rest) s.this [st] t = .ok () t' ∧
      Yields (s :: rest) (r.told (s :: rest)) (st.delay + r.closures (s :: rest)) p t t' := by
  cases st with
  | accept h vs =>
    cases hst
    obtain ⟨t', p, h1, h2⟩ := hrest vs t hr he
    refine ⟨t', p, ?_, ?_⟩
    · exact (bind_pure_unit _ t).trans h1
    · rw [show (Stmt.accept h vs).delay = 0 from by simp [Stmt.delay], Nat.zero_add]
      exact h2.weaken
  | reject es =>
    cases hst
    obtain ⟨t', h1, h2, h3, h4, h5⟩ := Chain.reject_eq rest (hsh.slot_ne hr) false t
    exact ⟨t', none, (bind_pure_unit _ t).trans h1, .over h2 hsh.owns_caught h5
      (fun u _ => by rw [h3]; rfl) (fun u _ => by rw [h4])⟩
  | add task =>
    obtain ⟨st', rfl⟩ : ∃ st', task = [st'] := by
      cases task with
      | nil => cases hst
      | cons st' more =>
        cases more with
        | nil => exact ⟨st', rfl⟩
        | cons _ _ => cases hst
    refine ⟨t.add ⟨true, s.this, [st']⟩, some ⟨s, rest, st', r⟩, rfl,
      ⟨⟨[], by simp [Trail.add], by simp, rfl⟩, rfl, ?_, ?_, fun _ _ => rfl, fun _ _ => rfl⟩⟩
    · simp [Stmt.delay, Wait.left, Wait.chain]
    · intro q hq
      obtain rfl : (⟨s, rest, st', r⟩ : Wait V) = q := by simpa using hq
      exact ⟨⟨hst, he, hr⟩, [], rfl⟩

/-- a body that returns `void` ends the run -/
theorem Chain.runBody_void (next : List V → A V Unit) (c : Chain V) (last : Bool) (f : Ref)
    {args vs : List V} {b : Body V} (hb : b.settle? args = some (.accept vs))
    (hv : b.isVoid = true) (t : Trail V) : Chain.runBody next c last f args b t = .ok () t := by
  cases Body.settle_cases hb with
  | accept code _ hcode => cases hv
  | ret r code hcode =>
    cases r with
    | multi => cases hv
    | single => cases hv
    | void =>
      rw [Chain.runBody, hcode]
      rfl
  | noFun r code =>
    cases r with
    | multi => cases hv
    | single => cases hv
    | void => rfl

/-- **What a run does before it stops**: some of the calls told, in order, the rest left to at
most one closure. -/
theorem Chain.run_yields {c : Chain V} (hsh : Shaped c) : RestYields c := by
  induction c with
  | nil => exact fun vs t _ _ => ⟨t, none, rfl, .over (by simp [told]) (by simp [told]) rfl
      (fun _ _ => rfl) (fun _ _ => rfl)⟩
  | cons s rest ih =>
    have hrest := ih hsh.2
    intro args t hs he
    have he' : ∀ s' ∈ rest, (t.emit (.body s.this args)).errored s'.this = false :=
      fun s' hs' => he s' (List.mem_cons_of_mem _ hs')
    have hes : (t.emit (.body s.this args)).errored s.this = false := he s (List.mem_cons_self ..)
    have hlast : rest.isEmpty = true → ∀ vs, Chain.run rest vs = pure () := by
      intro hl vs
      rw [List.isEmpty_iff.mp hl]
      rfl
    rw [Chain.run, bind_ok (modify_apply _ t)]
    -- the styles that settle before they return
    have now : s.body.settles? args = s.body.settle? args → s.body.delay args = 0 →
        ∃ t' p, Chain.runBody (Chain.run rest) (s :: rest) rest.isEmpty s.this args s.body
            (t.emit (.body s.this args)) = .ok () t' ∧
          Yields (s :: rest) (told (s :: rest) args) (closures (s :: rest) args) p t t' := by
      intro hnow hdelay
      unfold Settles at hs
      unfold told closures
      rw [hnow] at hs ⊢
      rw [hdelay]
      cases hr : s.body.settle? args with
      | none => rw [hr] at hs; exact hs.elim
      | some r =>
        rw [hr] at hs
        cases r with
        | accept vs =>
          cases hv : s.body.isVoid with
          | true =>
            refine ⟨_, none, Chain.runBody_void _ _ _ _ hr hv _, ?_⟩
            simp only [if_true]
            exact .call (.refl ..) (.over (by simp) (by simp) rfl (fun _ _ => rfl) (fun _ _ => rfl))
          | false =>
            obtain ⟨t₁, h1, hA⟩ := Chain.runBody_accept (Chain.run rest) (s :: rest) hr
              (fun _ => hv) hlast hes
            obtain ⟨t', p, h2, h3⟩ := hrest vs t₁ (hs hv) (fun s' hs' => by
              rw [hA.errored]
              exact he' s' hs')
            refine ⟨t', p, h1.trans h2, ?_⟩
            simp only [Bool.false_eq_true, if_false, Nat.zero_add]
            exact .call hA h3.weaken
        | reject es =>
          obtain ⟨t', h1, h2, h3, h4, h5⟩ := Chain.runBody_reject (Chain.run rest) rest
            (hsh.slot_ne hs) rest.isEmpty hr (t.emit (.body s.this args))
          refine ⟨t', none, h1, .call (.refl ..) (.over h2 hsh.owns_caught h3 (fun u hu => ?_)
            (fun u hu => ?_))⟩
          · exact h4 u (fun e => hu (by simp [e]))
          · exact h5 u (fun e => hu (by simp [e]))
    cases hb : s.body with
    | accRej code =>
      obtain ⟨st, hcode⟩ : ∃ st, code args = [st] := by
        unfold Settles at hs
        rw [hb] at hs
        simp only [Body.settles?] at hs
        cases hcode : code args with
        | nil => simp [hcode] at hs
        | cons st more =>
          cases more with
          | nil => exact ⟨st, rfl⟩
          | cons _ _ => simp [hcode] at hs
      have h1 : s.body.settles? args = st.settle? := by simp [hb, Body.settles?, hcode]
      have h2 : s.body.delay args = st.delay := by simp [hb, Body.delay, hcode]
      have hv : s.body.isVoid = false := by rw [hb]; rfl
      unfold Settles at hs
      unfold told closures
      rw [Chain.runBody, hcode]
      rw [h1] at hs ⊢
      rw [h2]
      cases hr : st.settle? with
      | none => rw [hr] at hs; exact hs.elim
      | some r =>
        rw [hr] at hs
        have hset : r.Settles (s :: rest) := by
          cases r with
          | accept vs => exact hs hv
          | reject es => exact hs
        obtain ⟨t', p, h3, h4⟩ := Chain.stmt_yields hsh hrest hr hset he'
        refine ⟨t', p, h3, ?_⟩
        cases r with
        | accept vs =>
          simp only [hv, Bool.false_eq_true, if_false]
          exact .call (.refl ..) h4
        | reject es => exact .call (.refl ..) h4
    | rej r code =>
      rw [← hb]
      exact now (by rw [hb]; rfl) (by rw [hb]; rfl)
    | noFun r code =>
      rw [← hb]
      exact now (by rw [hb]; rfl) (by rw [hb]; rfl)

/-! ## the immediate version of a heap -/

section
omit [Movable V]

/-- the call that the statements of an `ACC_REJ` body come to -/
def immediateCode (code : List V → List (Stmt V true)) (args : List V) : List (Stmt V true) :=
  match (Body.accRej code).settles? args with
  | some (.accept vs) => [.accept rfl vs]
  | some (.reject es) => [.reject es]
  | none => code args

/-- the same body, settling before it returns -/
def Body.immediate (b : Body V) : Body V :=
  match b with
  | .accRej code => .accRej (immediateCode code)
  | b => b

def Kind.immediate (k : Kind V) : Kind V :=
  match k with
  | .body b => .body b.immediate
  | k => k

def immediate (h : Heap V) : Heap V := h.map fun F => { F with kind := F.kind.immediate }

def Stage.immediate (s : Stage V) : Stage V := { s with body := s.body.immediate }

@[simp] theorem length_immediate (h : Heap V) : (immediate h).length = h.length := by
  simp [immediate]

theorem get_immediate (h : Heap V) (f : Ref) :
    (immediate h)[f]? = (h[f]?).map fun F => { F with kind := F.kind.immediate } := by
  simp [immediate]

theorem immediate_modify (h : Heap V) (f : Ref) (u : Object V → Object V)
    (hu : ∀ F, { u F with kind := (u F).kind.immediate } = u { F with kind := F.kind.immediate }) :
    immediate (h.modify f u) = (immediate h).modify f u := by
  apply List.ext_getElem?
  intro r
  rw [get_immediate, List.getElem?_modify, List.getElem?_modify, get_immediate]
  cases h[r]? with
  | none => rfl
  | some F => by_cases e : f = r <;> simp [e, hu]

theorem immediate_then_ (h : Heap V) (f : Ref) (b : Body V) :
    immediate (then_ h f b) = then_ (immediate h) f b.immediate := by
  unfold then_
  rw [immediate, List.map_append]
  show immediate _ ++ _ = _
  rw [immediate_modify _ _ _ (fun F => rfl), length_immediate]
  rfl

theorem immediate_except (h : Heap V) (f : Ref) :
    immediate (except h f) = except (immediate h) f := by
  unfold except
  rw [immediate, List.map_append]
  show immediate _ ++ _ = _
  rw [immediate_modify _ _ _ (fun F => rfl), length_immediate]
  rfl

theorem Built.immediate {h : Heap V} {cs : List (List Ref)} (hb : Built Anywhere h cs) :
    Built Anywhere (immediate h) cs := by
  induction hb with
  | empty => exact .empty
  | @bound h cs vs hb ih =>
    have h1 := Built.bound vs ih
    rw [length_immediate] at h1
    simpa [Future.immediate, Future.bound, Kind.immediate] using h1
  | @unbound h cs hb ih =>
    have h1 := Built.unbound ih
    rw [length_immediate] at h1
    simpa [Future.immediate, Future.unbound, Kind.immediate] using h1
  | then_ b hb hok ih =>
    have h1 := Built.then_ b.immediate ih trivial
    rw [length_immediate] at h1
    rw [immediate_then_]
    exact h1
  | except hb hf ih =>
    rw [immediate_except]
    exact ih.except hf

theorem chain_immediate (h : Heap V) (fs : List Ref) :
    chain (immediate h) fs = (chain h fs).map Stage.immediate := by
  have hst : ∀ f, stage? (immediate h) f = (stage? h f).map Stage.immediate := by
    intro f
    unfold stage?
    rw [get_immediate]
    cases h[f]? with
    | none => rfl
    | some F =>
      obtain ⟨k, v, n1, n2, n3, n4, n5, e⟩ := F
      cases k <;> rfl
  unfold chain
  rw [List.map_filterMap]
  congr 1
  funext f
  exact hst f

theorem delivered_immediate (h : Heap V) (hd : Ref) (args : List V) :
    delivered (immediate h) hd args = delivered h hd args := by
  unfold delivered
  rw [get_immediate]
  cases h[hd]? with
  | none => rfl
  | some F =>
    obtain ⟨k, v, n1, n2, n3, n4, n5, e⟩ := F
    cases k <;> rfl

theorem Body.immediate_isVoid (b : Body V) : b.immediate.isVoid = b.isVoid := by
  cases b <;> rfl

/-- it settles in the same way, without a closure -/
theorem Body.immediate_settles {b : Body V} {args : List V} {r : Settle V}
    (hr : b.settles? args = some r) :
    b.immediate.settles? args = some r ∧ b.immediate.delay args = 0 := by
  cases b with
  | accRej code =>
    cases r with
    | accept vs =>
      have hcode : immediateCode code args = [.accept rfl vs] := by rw [immediateCode, hr]
      simp [Body.immediate, Body.settles?, Body.delay, hcode, Stmt.settle?, Stmt.delay]
    | reject es =>
      have hcode : immediateCode code args = [.reject es] := by rw [immediateCode, hr]
      simp [Body.immediate, Body.settles?, Body.delay, hcode, Stmt.settle?, Stmt.delay]
  | rej r code => exact ⟨hr, rfl⟩
  | noFun r code => exact ⟨hr, rfl⟩

theorem caught_immediate (c : Chain V) : Chain.caught (c.map Stage.immediate) = Chain.caught c := by
  induction c with
  | nil => rfl
  | cons s rest ih =>
    rw [List.map_cons, Chain.caught, Chain.caught, ih]
    rfl

theorem nearest_immediate (c : Chain V) : nearest (c.map Stage.immediate) = nearest c := by
  unfold nearest
  rw [List.findSome?_map]
  rfl

/-- the calls told, and no closures -/
theorem immediate_told {c : Chain V} {args : List V} (hs : Settles c args) :
    Settles (c.map Stage.immediate) args ∧ told (c.map Stage.immediate) args = told c args ∧
      closures (c.map Stage.immediate) args = 0 := by
  induction c generalizing args with
  | nil => exact ⟨trivial, rfl, rfl⟩
  | cons s rest ih =>
    unfold Settles at hs
    have hv : (Stage.immediate s).body.isVoid = s.body.isVoid := s.body.immediate_isVoid
    cases hr : s.body.settles? args with
    | none => rw [hr] at hs; exact hs.elim
    | some r =>
      rw [hr] at hs
      obtain ⟨h1, h2⟩ := Body.immediate_settles hr
      have h1' : (Stage.immediate s).body.settles? args = some r := h1
      have h2' : (Stage.immediate s).body.delay args = 0 := h2
      cases r with
      | accept vs =>
        rw [List.map_cons, Settles, told, closures, told, h1', hr, h2', hv]
        cases hvoid : s.body.isVoid with
        | true => simp [Stage.immediate]
        | false =>
          obtain ⟨h3, h4, h5⟩ := ih (hs hvoid)
          simp [h3, h4, h5, Stage.immediate]
      | reject es =>
        have h3 : nearest ((s :: rest).map Stage.immediate) ≠ none := by
          rw [nearest_immediate]
          exact hs
        have h4 : caughtCalls ((s :: rest).map Stage.immediate) = caughtCalls (s :: rest) := by
          unfold caughtCalls
          rw [caught_immediate]
        rw [List.map_cons] at h3 h4 ⊢
        rw [Settles, told, closures, told, h1', hr, h2']
        exact ⟨h3, by rw [h4]; rfl, rfl⟩

end

/-- **what the immediate version of a chain calls** -/
theorem firstRun_immediate {h : Heap V} {cs : List (List Ref)} (hb : Built Anywhere h cs)
    {hd : Ref} {fs : List Ref} (hc : hd :: fs ∈ cs) {args : List V}
    (hs : Settles (chain h fs) (delivered h hd args)) :
    (firstRun (immediate h) hd args).calls = told (chain h fs) (delivered h hd args) := by
  have hb' := hb.immediate
  obtain ⟨t, h1, h2, h3, h4⟩ := seen_first_run hb' hc args
  rw [delivered_immediate, chain_immediate] at h4
  obtain ⟨h5, h6, h7⟩ := immediate_told hs
  have hsh := hb'.shaped hc
  rw [chain_immediate] at hsh
  obtain ⟨t', p, h8, h9⟩ := Chain.run_yields hsh _ t h5 (fun s _ => by rw [h1])
  obtain ⟨l, hl, -, hevs⟩ := h9.calls
  have hp : p = none := by
    cases p with
    | none => rfl
    | some p =>
      have h10 := h9.left
      rw [h7] at h10
      have h11 : p.left = 0 := by simpa using h10.symm
      unfold Wait.left at h11
      omega
  subst hp
  rw [h4, ← h6, hevs, Trail.seen_calls (l := l) (by rw [h8]; exact hl)]
  exact (List.append_nil l).symm

end

end Future
end Pharoah
