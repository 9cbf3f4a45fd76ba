import Pharoah.Lib.Select

/-!
# Futures: the styles of a body, read off its signature

`then` is a template.  It takes the style of a body, and which of its parameters are the accept and
reject functions, from the signature of the lambda: of the five specialisations of `lambda_traits`
that may match, the compiler picks the most specialised one, and a `static_assert` compares what is
left of the parameters with the outputs of the future before.

* `Ty`, `Sig`          the types as far as the specialisations tell them apart, and signatures;
* `Spec`               the five specialisations, each with its pattern and its members;
* `lambda_traits`      the members of the most specialised specialisation that matches;
* `thenType`           the type of the future that `then` makes, if its `static_assert` passes;
* `Written`            a signature in one of the five styles, against given outputs.

`selected_unique`: the selection is never ambiguous.  `classified_iff`: **a body is classified as it
was written, unless the first output is a function and the body takes no function of its own, or
only a reject and returns `void`**.
-/

namespace Pharoah
namespace Future
namespace Traits

/-! ## types and signatures -/

/-- A type: `std::function<void(args...)>`, which `accept` and `reject` are other names for,
`Multi<args...>`, or any other one. -/
inductive Ty (B : Type) where
  | function (args : List (Ty B))
  | multi (args : List (Ty B))
  | other (b : B)

section
variable {B : Type} [DecidableEq B]

mutual

def Ty.decEq : (s t : Ty B) → Decidable (s = t)
  | .function as, .function bs => match decEqs as bs with
    | isTrue h => isTrue (congrArg _ h)
    | isFalse h => isFalse fun e => h (Ty.function.inj e)
  | .multi as, .multi bs => match decEqs as bs with
    | isTrue h => isTrue (congrArg _ h)
    | isFalse h => isFalse fun e => h (Ty.multi.inj e)
  | .other a, .other b => match decEq a b with
    | isTrue h => isTrue (congrArg _ h)
    | isFalse h => isFalse fun e => h (Ty.other.inj e)
  | .function _, .multi _ => isFalse nofun
  | .function _, .other _ => isFalse nofun
  | .multi _, .function _ => isFalse nofun
  | .multi _, .other _ => isFalse nofun
  | .other _, .function _ => isFalse nofun
  | .other _, .multi _ => isFalse nofun

def decEqs : (ss ts : List (Ty B)) → Decidable (ss = ts)
  | [], [] => isTrue rfl
  | [], _ :: _ => isFalse nofun
  | _ :: _, [] => isFalse nofun
  | s :: ss, t :: ts => match Ty.decEq s t, decEqs ss ts with
    | isTrue h, isTrue h' => isTrue (by rw [h, h'])
    | isFalse h, _ => isFalse fun e => h (List.cons_eq_cons.mp e).1
    | _, isFalse h => isFalse fun e => h (List.cons_eq_cons.mp e).2

end

instance : DecidableEq (Ty B) := Ty.decEq

end

/-- a return type; `none` is `void` -/
abbrev RetTy (B : Type) := Option (Ty B)

/-- `ret (ClassType::*)(params...) const`, the type of a lambda's call operator -/
structure Sig (B : Type) where
  ret : RetTy B
  params : List (Ty B)
deriving DecidableEq

/-- the modes of a future; the first five are the styles of a body -/
inductive FutureMode where
  | accRej
  | rejMulti
  | rejSingle
  | multi
  | single
  | bound
  | unbound
  | except
deriving DecidableEq

section
variable {B : Type}

/-! ## the specialisations -/

/-- what a pattern asks of the return type: `void`, `Multi<AcceptSig...>`, or any `AcceptSig` -/
inductive RetPat where
  | void
  | multi
  | any
deriving DecidableEq

/-- A pattern: of the return type, and how many parameters `std::function<void(...)>` come before the
pack `Args...`. -/
structure Pattern where
  ret : RetPat
  funs : Nat
deriving DecidableEq

def RetPat.deduces (p : RetPat) (r : RetTy B) : Bool :=
  match p, r with
  | .void, none => true
  | .multi, some (.multi _) => true
  | .any, _ => true
  | _, _ => false

def deducesFuns : Nat → List (Ty B) → Bool
  | 0, _ => true
  | n + 1, .function _ :: params => deducesFuns n params
  | _ + 1, _ => false

/-- the pattern matches the signature -/
def Pattern.deduces (p : Pattern) (sig : Sig B) : Bool :=
  p.ret.deduces sig.ret && deducesFuns p.funs sig.params

def RetPat.unique (p : RetPat) : RetTy Unit :=
  match p with
  | .void => none
  | .multi => some (.multi [.other ()])
  | .any => some (.other ())

/-- The pattern with a new type for each of its types.  Of the new pack `Args...` nothing is left, as
only a pack can be deduced from it. -/
def Pattern.unique (p : Pattern) : Sig Unit where
  ret := p.ret.unique
  params := List.replicate p.funs (.function [.other ()])

/-- partial ordering: `q` can be deduced from `p` -/
def Pattern.AtLeast (p q : Pattern) : Prop := q.deduces p.unique = true

instance (p q : Pattern) : Decidable (p.AtLeast q) := inferInstanceAs (Decidable (_ = _))

/-- the partial specialisations of `lambda_traits` -/
inductive Spec where
  | accRej
  | rejMulti
  | rejSingle
  | multi
  | single
deriving DecidableEq

def specs : List Spec := [.accRej, .rejMulti, .rejSingle, .multi, .single]

def Spec.pattern : Spec → Pattern
  | .accRej => ⟨.void, 2⟩
  | .rejMulti => ⟨.multi, 1⟩
  | .rejSingle => ⟨.any, 1⟩
  | .multi => ⟨.multi, 0⟩
  | .single => ⟨.any, 0⟩

/-- the members of a specialisation -/
structure Members (B : Type) where
  args_type : List (Ty B)
  accept_type : List (Ty B)
  reject_type : List (Ty B)
  mode : FutureMode
deriving DecidableEq

/-- the members for a signature that matches; `out<>` for `void` -/
def Spec.members (s : Spec) (sig : Sig B) : Option (Members B) :=
  match s, sig with
  | .accRej, ⟨none, .function acceptSig :: .function rejectSig :: args⟩ =>
    some ⟨args, acceptSig, rejectSig, .accRej⟩
  | .rejMulti, ⟨some (.multi acceptSig), .function rejectSig :: args⟩ =>
    some ⟨args, acceptSig, rejectSig, .rejMulti⟩
  | .rejSingle, ⟨acceptSig, .function rejectSig :: args⟩ =>
    some ⟨args, acceptSig.toList, rejectSig, .rejSingle⟩
  | .multi, ⟨some (.multi acceptSig), args⟩ => some ⟨args, acceptSig, [], .multi⟩
  | .single, ⟨acceptSig, args⟩ => some ⟨args, acceptSig.toList, [], .single⟩
  | _, _ => none

theorem RetPat.any_deduces (r : RetTy B) : RetPat.any.deduces r = true := by
  rcases r with - | ⟨ts | ts | b⟩ <;> rfl

theorem deducesFuns_succ {n : Nat} {params : List (Ty B)} (h : deducesFuns (n + 1) params = true) :
    ∃ sig rest, params = .function sig :: rest ∧ deducesFuns n rest = true := by
  cases params with
  | nil => cases h
  | cons t rest =>
    cases t with
    | function sig => exact ⟨sig, rest, rfl, h⟩
    | multi ts => cases h
    | other b => cases h

theorem RetPat.deduces_multi {r : RetTy B} (h : RetPat.multi.deduces r = true) :
    ∃ ts, r = some (.multi ts) := by
  rcases r with - | ⟨ts | ts | b⟩
  · cases h
  · cases h
  · exact ⟨ts, rfl⟩
  · cases h

/-- a specialisation that matches has its members -/
theorem members_of_deduces {s : Spec} {sig : Sig B} (h : s.pattern.deduces sig = true) :
    ∃ t, s.members sig = some t := by
  obtain ⟨ret, params⟩ := sig
  obtain ⟨h1, h2⟩ := Bool.and_eq_true_iff.mp h
  cases s with
  | accRej =>
    obtain ⟨a, rest, rfl, h3⟩ := deducesFuns_succ h2
    obtain ⟨r, args, rfl, -⟩ := deducesFuns_succ h3
    cases ret with
    | none => exact ⟨_, rfl⟩
    | some t => cases h1
  | rejMulti =>
    obtain ⟨a, rfl⟩ := RetPat.deduces_multi h1
    obtain ⟨r, args, rfl, -⟩ := deducesFuns_succ h2
    exact ⟨_, rfl⟩
  | rejSingle =>
    obtain ⟨r, args, rfl, -⟩ := deducesFuns_succ h2
    exact ⟨_, rfl⟩
  | multi =>
    obtain ⟨a, rfl⟩ := RetPat.deduces_multi h1
    exact ⟨_, rfl⟩
  | single => exact ⟨_, rfl⟩

/-! ## partial ordering -/

theorem deducesFuns_le {m n : Nat} (hmn : m ≤ n) {params : List (Ty B)}
    (h : deducesFuns n params = true) : deducesFuns m params = true := by
  induction m generalizing n params with
  | zero => cases params <;> rfl
  | succ m ih =>
    obtain ⟨n, rfl⟩ : ∃ k, n = k + 1 := ⟨n - 1, by omega⟩
    obtain ⟨sig, rest, rfl, h⟩ := deducesFuns_succ h
    exact ih (by omega) h

theorem deducesFuns_replicate {m n : Nat} {sig : List (Ty B)}
    (h : deducesFuns n (List.replicate m (.function sig)) = true) : n ≤ m := by
  induction n generalizing m with
  | zero => omega
  | succ n ih =>
    obtain ⟨sig', rest, he, h⟩ := deducesFuns_succ h
    obtain ⟨m, rfl⟩ : ∃ k, m = k + 1 := ⟨m - 1, by
      have hpos : m ≠ 0 := fun e => by rw [e] at he; cases he
      omega⟩
    rw [List.replicate_succ] at he
    obtain ⟨-, rfl⟩ := List.cons_eq_cons.mp he
    have := ih h
    omega

theorem RetPat.deduces_unique {p q : RetPat} : q.deduces p.unique = true ↔ q = .any ∨ q = p := by
  cases p <;> cases q <;> decide

/-- `p` is at least as specialised as `q` -/
theorem atLeast_iff {p q : Pattern} :
    p.AtLeast q ↔ (q.ret = .any ∨ q.ret = p.ret) ∧ q.funs ≤ p.funs := by
  unfold Pattern.AtLeast Pattern.deduces
  rw [Bool.and_eq_true_iff]
  show q.ret.deduces p.ret.unique = true ∧
    deducesFuns q.funs (List.replicate p.funs (.function [.other ()])) = true ↔ _
  rw [RetPat.deduces_unique]
  refine and_congr_right fun _ => ⟨deducesFuns_replicate, fun h => ?_⟩
  have hall : ∀ n, deducesFuns n (List.replicate n (Ty.function [.other ()])) = true := by
    intro n
    induction n with
    | zero => rfl
    | succ n ih => exact ih
  exact deducesFuns_le h (hall p.funs)

theorem Pattern.AtLeast.refl (p : Pattern) : p.AtLeast p := atLeast_iff.mpr ⟨.inr rfl, Nat.le_refl _⟩

theorem Pattern.AtLeast.trans {p q r : Pattern} (h : p.AtLeast q) (h' : q.AtLeast r) :
    p.AtLeast r := by
  rw [atLeast_iff] at h h' ⊢
  refine ⟨?_, by omega⟩
  rcases h'.1 with h1 | h1
  · exact .inl h1
  · rw [h1]
    exact h.1

theorem Pattern.AtLeast.antisymm {p q : Pattern} (h : p.AtLeast q) (h' : q.AtLeast p) : p = q := by
  rw [atLeast_iff] at h h'
  obtain ⟨pr, pn⟩ := p
  obtain ⟨qr, qn⟩ := q
  have hn : pn = qn := Nat.le_antisymm h'.2 h.2
  have hr : pr = qr := by
    rcases h.1 with h1 | h1
    · rcases h'.1 with h2 | h2
      · exact h2.trans h1.symm
      · exact h2
    · exact h1.symm
  rw [hn, hr]

/-- **What partial ordering decides**: one pattern is at least as specialised as another one exactly
if it matches no other signatures. -/
theorem atLeast_iff_deduces {p q : Pattern} :
    p.AtLeast q ↔ ∀ (B : Type) (sig : Sig B), p.deduces sig = true → q.deduces sig = true := by
  constructor
  · intro h B sig hp
    rw [atLeast_iff] at h
    obtain ⟨h1, h2⟩ := Bool.and_eq_true_iff.mp hp
    refine Bool.and_eq_true_iff.mpr ⟨?_, deducesFuns_le h.2 h2⟩
    rcases h.1 with h3 | h3
    · rw [h3]
      exact RetPat.any_deduces _
    · rw [h3]
      exact h1
  · exact fun h => h Unit p.unique (Pattern.AtLeast.refl p)

/-! ## where two patterns overlap -/

def RetPat.inf : RetPat → RetPat → Option RetPat
  | .any, r => some r
  | r, .any => some r
  | r, r' => if r = r' then some r else none

/-- the pattern of the signatures that both match -/
def Pattern.inf (p q : Pattern) : Option Pattern :=
  (p.ret.inf q.ret).map fun r => ⟨r, max p.funs q.funs⟩

theorem RetPat.inf_of_deduces {p q : RetPat} {r : RetTy B} (hp : p.deduces r = true)
    (hq : q.deduces r = true) : ∃ m, p.inf q = some m ∧ m.deduces r = true ∧
      (p = .any ∨ p = m) ∧ (q = .any ∨ q = m) := by
  have hboth : ∀ {r : RetTy B}, RetPat.void.deduces r = true → RetPat.multi.deduces r = true →
      False := by
    intro r hv hm
    obtain ⟨ts, rfl⟩ := RetPat.deduces_multi hm
    cases hv
  cases p with
  | any => exact ⟨q, by cases q <;> rfl, hq, .inl rfl, .inr rfl⟩
  | void =>
    cases q with
    | any => exact ⟨.void, rfl, hp, .inr rfl, .inl rfl⟩
    | void => exact ⟨.void, rfl, hp, .inr rfl, .inr rfl⟩
    | multi => exact (hboth hp hq).elim
  | multi =>
    cases q with
    | any => exact ⟨.multi, rfl, hp, .inr rfl, .inl rfl⟩
    | void => exact (hboth hq hp).elim
    | multi => exact ⟨.multi, rfl, hp, .inr rfl, .inr rfl⟩

theorem Pattern.inf_of_deduces {p q : Pattern} {sig : Sig B} (hp : p.deduces sig = true)
    (hq : q.deduces sig = true) :
    ∃ m, p.inf q = some m ∧ m.deduces sig = true ∧ m.AtLeast p ∧ m.AtLeast q := by
  obtain ⟨hp1, hp2⟩ := Bool.and_eq_true_iff.mp hp
  obtain ⟨hq1, hq2⟩ := Bool.and_eq_true_iff.mp hq
  obtain ⟨r, hr, h1, h2, h3⟩ := RetPat.inf_of_deduces hp1 hq1
  refine ⟨⟨r, max p.funs q.funs⟩, by rw [Pattern.inf, hr]; rfl, ?_, ?_, ?_⟩
  · refine Bool.and_eq_true_iff.mpr ⟨h1, ?_⟩
    rcases Nat.le_total p.funs q.funs with h | h
    · rw [Nat.max_eq_right h]
      exact hq2
    · rw [Nat.max_eq_left h]
      exact hp2
  · exact atLeast_iff.mpr ⟨h2, Nat.le_max_left ..⟩
  · exact atLeast_iff.mpr ⟨h3, Nat.le_max_right ..⟩

/-- where two specialisations overlap there is a third, or it is one of them -/
theorem specs_inf : ∀ s ∈ specs, ∀ s' ∈ specs, ∀ m ∈ s.pattern.inf s'.pattern,
    m ∈ specs.map Spec.pattern := by decide

/-! ## the selection -/

/-- `s` is the most specialised specialisation that matches the signature -/
def Selected (sig : Sig B) (s : Spec) : Prop :=
  Select.Selected specs (fun s sig => s.pattern.deduces sig = true)
    (fun s s' => s.pattern.AtLeast s'.pattern) sig s

/-- **Exactly one specialisation is selected**, whatever the signature. -/
theorem selected_unique (sig : Sig B) : ∃! s, Selected sig s := by
  have hall : ∀ s, s ∈ specs := by
    intro s
    cases s <;> decide
  have hinj : ∀ s s' : Spec, s.pattern = s'.pattern → s = s' := by
    intro s s' h
    cases s <;> cases s' <;> first | rfl | cases h
  obtain ⟨s, hs⟩ := @Select.exists_selected Spec (Sig B) specs
    (fun s sig => s.pattern.deduces sig = true) (fun s s' => s.pattern.AtLeast s'.pattern)
    (fun _ _ _ h h' => h.trans h') (fun s _ s' _ h h' => hinj s s' (h.antisymm h')) sig
    (fun s hs s' hs' h h' => by
      obtain ⟨m, hm, h1, h2, h3⟩ := Pattern.inf_of_deduces h h'
      obtain ⟨r, hr, rfl⟩ := List.mem_map.mp (specs_inf s hs s' hs' m hm)
      exact ⟨r, hr, h1, h2, h3⟩)
    .single (hall .single) (by
      rcases sig with ⟨- | ⟨ts | ts | b⟩, - | ⟨t, ps⟩⟩ <;> rfl)
  exact ⟨s, hs, fun s' hs' => Select.Selected.unique hs' hs⟩

/-- the members that `lambda_traits` has for a signature -/
def lambda_traits (sig : Sig B) : Option (Members B) :=
  (Select.select specs (fun s sig => s.pattern.deduces sig = true)
    (fun s s' => s.pattern.AtLeast s'.pattern) sig).bind fun s => s.members sig

theorem lambda_traits_eq {sig : Sig B} {s : Spec} (h : Selected sig s) :
    lambda_traits sig = s.members sig := by
  have h1 := Select.select_eq_some.mpr h
  unfold lambda_traits
  rw [h1]
  rfl

/-! ## the next future -/

/-- `Future<in<...>, out<...>, err<...>, mode>` -/
structure FutureTy (B : Type) where
  vInType : List (Ty B)
  vOutType : List (Ty B)
  vErrType : List (Ty B)
  futureMode : FutureMode
deriving DecidableEq

namespace FutureTy

def hasAcc (F : FutureTy B) : Bool := F.futureMode = .accRej

def hasRej (F : FutureTy B) : Bool := F.futureMode = .rejMulti ∨ F.futureMode = .rejSingle

def retMulti (F : FutureTy B) : Bool := F.futureMode = .rejMulti ∨ F.futureMode = .multi

def retSingle (F : FutureTy B) : Bool := F.futureMode = .rejSingle ∨ F.futureMode = .single

/-- the return type of the body; `out<>::first` is `void` -/
def bodyret_t (F : FutureTy B) : RetTy B :=
  if F.retMulti then some (.multi F.vOutType) else if F.retSingle then F.vOutType.head? else none

/-- the functions that the body is given before its values -/
def funs (F : FutureTy B) : List (Ty B) :=
  if F.hasAcc then [.function F.vOutType, .function F.vErrType]
  else if F.hasRej then [.function F.vErrType]
  else []

/-- the signature of the member `body` -/
def body (F : FutureTy B) : Sig B := ⟨F.bodyret_t, F.funs ++ F.vInType⟩

end FutureTy

/-- `then` on a future with the outputs `vOutType`, for a lambda with the signature `sig` -/
def thenType [DecidableEq B] (vOutType : List (Ty B)) (sig : Sig B) : Option (FutureTy B) :=
  (lambda_traits sig).bind fun traits =>
    if traits.args_type = vOutType then
      some ⟨vOutType, traits.accept_type, traits.reject_type, traits.mode⟩
    else none

/-! ## the styles -/

def IsMulti (ret : RetTy B) : Prop := ∃ ts, ret = some (.multi ts)

/-- A body against the outputs `outs`, in one of the five styles, with what it accepts and rejects. -/
inductive Written (outs : List (Ty B)) : FutureMode → List (Ty B) → List (Ty B) → Sig B → Prop where
  | accRej (acc rej : List (Ty B)) :
      Written outs .accRej acc rej ⟨none, .function acc :: .function rej :: outs⟩
  | rejMulti (acc rej : List (Ty B)) :
      Written outs .rejMulti acc rej ⟨some (.multi acc), .function rej :: outs⟩
  | rejSingle (ret : RetTy B) (rej : List (Ty B)) :
      ¬ IsMulti ret → Written outs .rejSingle ret.toList rej ⟨ret, .function rej :: outs⟩
  | multi (acc : List (Ty B)) : Written outs .multi acc [] ⟨some (.multi acc), outs⟩
  | single (ret : RetTy B) : ¬ IsMulti ret → Written outs .single ret.toList [] ⟨ret, outs⟩

/-- The future that `then` makes stores the body as it was written. -/
theorem Written.body_eq {outs acc rej : List (Ty B)} {m : FutureMode} {sig : Sig B}
    (h : Written outs m acc rej sig) : FutureTy.body ⟨outs, acc, rej, m⟩ = sig := by
  cases h with
  | accRej => rfl
  | rejMulti => rfl
  | rejSingle ret => cases ret <;> rfl
  | multi => rfl
  | single ret => cases ret <;> rfl

/-- The first output is a function, and the body takes none of its own, or only a reject and returns
`void`. -/
def Mistaken (outs : List (Ty B)) (m : FutureMode) (ret : RetTy B) : Prop :=
  (∃ ts, outs.head? = some (.function ts)) ∧
    (m = .multi ∨ m = .single ∨ m = .rejSingle ∧ ret = none)

/-! ## which specialisation is selected -/

theorem mem_specs (s : Spec) : s ∈ specs := by
  cases s <;> decide

/-- the selected specialisation is at least as specialised as each one that matches -/
theorem selected_iff {sig : Sig B} {s : Spec} : Selected sig s ↔
    s.pattern.deduces sig = true ∧
      ∀ s' : Spec, s'.pattern.deduces sig = true → s.pattern.AtLeast s'.pattern := by
  constructor
  · intro h
    refine ⟨h.2.1, fun s' hs' => ?_⟩
    by_cases e : s' = s
    · rw [e]
      exact .refl _
    · exact (h.2.2 s' (mem_specs s') hs' e).1
  · rintro ⟨hs, h⟩
    obtain ⟨s₀, hs₀, -⟩ := selected_unique sig
    by_cases e : s = s₀
    · rw [e]
      exact hs₀
    · exact absurd (h s₀ hs₀.2.1) (hs₀.2.2 s (mem_specs s) hs e).2

def Spec.mode : Spec → FutureMode
  | .accRej => .accRej
  | .rejMulti => .rejMulti
  | .rejSingle => .rejSingle
  | .multi => .multi
  | .single => .single

theorem members_mode {s : Spec} {sig : Sig B} {t : Members B} (h : s.members sig = some t) :
    t.mode = s.mode ∧ s.pattern.deduces sig = true := by
  unfold Spec.members at h
  split at h
  · cases h; exact ⟨rfl, rfl⟩
  · cases h; exact ⟨rfl, rfl⟩
  · cases h; exact ⟨rfl, rfl⟩
  · cases h; exact ⟨rfl, rfl⟩
  · next ret args =>
    cases h
    refine ⟨rfl, ?_⟩
    cases args <;> rfl
  · cases h

/-- What is taken for a style is that style, against what is left of the parameters. -/
theorem Selected.written {sig : Sig B} {s : Spec} (h : Selected sig s) {t : Members B}
    (ht : s.members sig = some t) :
    Written t.args_type t.mode t.accept_type t.reject_type sig := by
  have hleast := (selected_iff.mp h).2
  unfold Spec.members at ht
  split at ht
  · cases ht
    exact .accRej _ _
  · cases ht
    exact .rejMulti _ _
  · next ret rej args =>
    cases ht
    refine .rejSingle ret rej ?_
    rintro ⟨ts, rfl⟩
    exact absurd (hleast .rejMulti rfl) (by decide)
  · cases ht
    exact .multi _
  · next ret args =>
    cases ht
    refine .single ret ?_
    rintro ⟨ts, rfl⟩
    exact absurd (hleast .multi (by cases args <;> rfl)) (by decide)
  · cases ht

/-- the first output is a function -/
def FirstFunction (outs : List (Ty B)) : Prop := ∃ ts rest, outs = .function ts :: rest

theorem mistaken_iff {outs : List (Ty B)} {m : FutureMode} {ret : RetTy B} : Mistaken outs m ret ↔
    FirstFunction outs ∧ (m = .multi ∨ m = .single ∨ m = .rejSingle ∧ ret = none) := by
  refine and_congr_left fun _ => ⟨?_, ?_⟩
  · rintro ⟨ts, h⟩
    exact ⟨ts, _, List.eq_cons_of_mem_head? h⟩
  · rintro ⟨ts, rest, rfl⟩
    exact ⟨ts, rfl⟩

/-- a pattern with a function matches -/
theorem firstFunction_of {p : Pattern} {ret : RetTy B} {outs : List (Ty B)}
    (h : p.deduces ⟨ret, outs⟩ = true) (hp : 1 ≤ p.funs) : FirstFunction outs := by
  obtain ⟨-, h2⟩ := Bool.and_eq_true_iff.mp h
  obtain ⟨ts, rest, he, -⟩ := deducesFuns_succ (n := 0) (deducesFuns_le hp h2)
  exact ⟨ts, rest, he⟩

/-- The specialisation of the style matches, and it is the most specialised one unless the first
output is taken for a function of the body. -/
theorem Written.least_iff {outs acc rej : List (Ty B)} {m : FutureMode} {sig : Sig B}
    (h : Written outs m acc rej sig) : ∃ s : Spec, s.members sig = some ⟨outs, acc, rej, m⟩ ∧
      ((∀ s' : Spec, s'.pattern.deduces sig = true → s.pattern.AtLeast s'.pattern) ↔
        ¬ Mistaken outs m sig.ret) := by
  simp only [mistaken_iff]
  have nomulti : ∀ {ret : RetTy B} {s' : Spec} {ps : List (Ty B)}, ¬ IsMulti ret →
      s'.pattern.ret = .multi → ¬ s'.pattern.deduces ⟨ret, ps⟩ = true := by
    intro ret s' ps hret hs' hd
    have h1 := (Bool.and_eq_true_iff.mp hd).1
    rw [hs'] at h1
    exact hret (RetPat.deduces_multi h1)
  cases h with
  | accRej acc rej =>
    refine ⟨.accRej, rfl, fun _ => by simp, fun _ s' hs' => ?_⟩
    cases s' with
    | accRej => decide
    | rejMulti => cases hs'
    | rejSingle => decide
    | multi => cases hs'
    | single => decide
  | rejMulti acc rej =>
    refine ⟨.rejMulti, rfl, fun _ => by simp, fun _ s' hs' => ?_⟩
    cases s' with
    | accRej => cases hs'
    | rejMulti => decide
    | rejSingle => decide
    | multi => decide
    | single => decide
  | rejSingle ret rej hret =>
    refine ⟨.rejSingle, rfl, ?_, fun hn s' hs' => ?_⟩
    · rintro hall ⟨⟨ts, rest, rfl⟩, h | h | ⟨-, h⟩⟩
      · cases h
      · cases h
      · subst h
        exact absurd (hall .accRej rfl) (by decide)
    · cases s' with
      | accRej =>
        obtain ⟨h1, h2⟩ := Bool.and_eq_true_iff.mp hs'
        obtain ⟨ts, rest, he, -⟩ := @deducesFuns_succ B 0 outs h2
        cases ret with
        | none => exact absurd ⟨⟨ts, rest, he⟩, .inr (.inr ⟨rfl, rfl⟩)⟩ hn
        | some t => cases h1
      | rejMulti => exact absurd hs' (nomulti hret rfl)
      | rejSingle => decide
      | multi => exact absurd hs' (nomulti hret rfl)
      | single => decide
  | multi acc =>
    refine ⟨.multi, rfl, ?_, fun hn s' hs' => ?_⟩
    · rintro hall ⟨⟨ts, rest, rfl⟩, -⟩
      exact absurd (hall .rejMulti rfl) (by decide)
    · cases s' with
      | accRej => cases hs'
      | rejMulti => exact absurd ⟨firstFunction_of hs' (by decide), .inl rfl⟩ hn
      | rejSingle => exact absurd ⟨firstFunction_of hs' (by decide), .inl rfl⟩ hn
      | multi => decide
      | single => decide
  | single ret hret =>
    refine ⟨.single, rfl, ?_, fun hn s' hs' => ?_⟩
    · rintro hall ⟨⟨ts, rest, rfl⟩, -⟩
      exact absurd (hall .rejSingle (by rcases ret with - | ⟨ts | ts | b⟩ <;> rfl)) (by decide)
    · cases s' with
      | accRej => exact absurd ⟨firstFunction_of hs' (by decide), .inr (.inl rfl)⟩ hn
      | rejMulti => exact absurd hs' (nomulti hret rfl)
      | rejSingle => exact absurd ⟨firstFunction_of hs' (by decide), .inr (.inl rfl)⟩ hn
      | multi => exact absurd hs' (nomulti hret rfl)
      | single => decide

/-! ## the classification -/

variable [DecidableEq B]

/-- a `static_assert` that passes -/
theorem thenType_eq_some {outs : List (Ty B)} {sig : Sig B} {F : FutureTy B} :
    thenType outs sig = some F ↔ ∃ s, Selected sig s ∧
      s.members sig = some ⟨outs, F.vOutType, F.vErrType, F.futureMode⟩ ∧ F.vInType = outs := by
  obtain ⟨s, hs, hone⟩ := selected_unique sig
  obtain ⟨t, ht⟩ := members_of_deduces (selected_iff.mp hs).1
  have htraits : lambda_traits sig = some t := (lambda_traits_eq hs).trans ht
  unfold thenType
  rw [htraits, Option.bind_some]
  constructor
  · intro h
    split at h
    · next hargs =>
      cases h
      refine ⟨s, hs, ?_, rfl⟩
      rw [ht, ← hargs]
    · cases h
  · rintro ⟨s', hs', ht', hF⟩
    obtain rfl := hone s' hs'
    obtain rfl := Option.some.inj (ht.symm.trans ht')
    obtain ⟨vin, vout, verr, mode⟩ := F
    obtain rfl : vin = outs := hF
    exact if_pos rfl

/-- **The classification of bodies.**  For every signature exactly one specialisation is selected.
If the `static_assert` passes, what was taken for accept and reject are the parameters before the
outputs, and the member `body` has the signature of the lambda.  A body written in one of the five
styles against the outputs passes with its own mode exactly unless the first output is a function,
and the body takes no function itself, or only a reject and returns `void`. -/
theorem classified_iff (outs : List (Ty B)) (sig : Sig B) :
    (∃! s, Selected sig s) ∧
    (∀ F, thenType outs sig = some F → sig.params = F.funs ++ outs ∧
      F.funs.length = sig.params.length - outs.length ∧ F.body = sig) ∧
    ∀ m acc rej, Written outs m acc rej sig →
      (thenType outs sig = some ⟨outs, acc, rej, m⟩ ↔ ¬ Mistaken outs m sig.ret) := by
  refine ⟨selected_unique sig, fun F h => ?_, fun m acc rej hw => ?_⟩
  · obtain ⟨s, hs, ht, hF⟩ := thenType_eq_some.mp h
    have hbody := (hs.written ht).body_eq
    rw [← hF] at hbody
    have hparams : sig.params = F.funs ++ outs := by
      rw [← hbody, ← hF]
      rfl
    refine ⟨hparams, ?_, hbody⟩
    rw [hparams, List.length_append]
    omega
  · obtain ⟨s, ht, hleast⟩ := hw.least_iff
    rw [← hleast, thenType_eq_some]
    obtain ⟨hmode, hded⟩ := members_mode ht
    constructor
    · rintro ⟨s', hs', ht', -⟩
      obtain ⟨hmode', -⟩ := members_mode ht'
      have hsame : s' = s := by
        have h1 : s'.mode = s.mode := hmode'.symm.trans hmode
        cases s' <;> cases s <;> first | rfl | cases h1
      rw [← hsame]
      exact (selected_iff.mp hs').2
    · exact fun hall => ⟨s, selected_iff.mpr ⟨hded, hall⟩, ht, rfl⟩

end

/-- A body that takes a function value is taken for one that takes a reject. -/
theorem function_value_taken :
    Written [Ty.function [Ty.other ()]] .single [] [] ⟨none, [.function [.other ()]]⟩ ∧
    lambda_traits (B := Unit) ⟨none, [.function [.other ()]]⟩ = some ⟨[], [], [.other ()], .rejSingle⟩ ∧
    thenType (B := Unit) [.function [.other ()]] ⟨none, [.function [.other ()]]⟩ = none := by
  refine ⟨?_, rfl, rfl⟩
  exact .single none (by rintro ⟨ts, h⟩; cases h)

end Traits
end Future
end Pharoah
