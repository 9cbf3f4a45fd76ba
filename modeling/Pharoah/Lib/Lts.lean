import Mathlib.Data.List.Induction
import Mathlib.Logic.Basic

/-!
# Transition systems

`step s a` is the state that the action `a` leads to from `s`, if `a` is possible there.

* `exec step s as`     the state after the actions `as`;
* `Along step P s as`  `P` holds of each action of the run and the state it is taken in, the
                       action at which the run stops included;
* `Throughout step Q s as`  `Q` holds of every state that the actions `as` lead through;
* `invariant`, `Along.invariant`  what every step keeps, every run keeps; the second is for steps
                       that keep it under a guard `G`;
* `history`              what holds of the start, and of a run and its state after one more step, holds of
                         every run and its state;
* `iff_along`          what breaks for good where `G` fails holds at the end iff `G` holds all along;
* `project`            a run of a system is a run of each of its parts.
-/

namespace Pharoah
namespace Lts

section
variable {S A : Type} (step : S → A → Option S)

/-- the state after a run -/
def exec : S → List A → Option S
  | s, [] => some s
  | s, a :: as => (step s a).bind fun s' => exec s' as

/-- `P` holds of every step. -/
def Along (P : S → A → Prop) : S → List A → Prop
  | _, [] => True
  | s, a :: as => P s a ∧ ∀ s', step s a = some s' → Along P s' as

/-- `Q` holds of every state of a run. -/
def Throughout (Q : S → Prop) (s : S) (as : List A) : Prop :=
  ∀ bs t, bs <+: as → exec step s bs = some t → Q t

variable {step}

theorem exec_nil {s t : S} : exec step s [] = some t ↔ s = t := by
  show some s = some t ↔ s = t
  rw [Option.some_inj]

theorem exec_cons {s t : S} {a : A} {as : List A} :
    exec step s (a :: as) = some t ↔ ∃ s', step s a = some s' ∧ exec step s' as = some t := by
  show (step s a).bind (fun s' => exec step s' as) = some t ↔ _
  rw [Option.bind_eq_some_iff]

theorem exec_append {s t : S} {as bs : List A} :
    exec step s (as ++ bs) = some t ↔ ∃ s', exec step s as = some s' ∧ exec step s' bs = some t := by
  induction as generalizing s with
  | nil =>
    show exec step s bs = some t ↔ _
    constructor
    · exact fun h => ⟨s, rfl, h⟩
    · rintro ⟨s', h1, h2⟩
      rw [exec_nil.mp h1]
      exact h2
  | cons a as ih =>
    simp only [List.cons_append, exec_cons]
    constructor
    · rintro ⟨s1, h1, h2⟩
      obtain ⟨s2, h3, h4⟩ := ih.mp h2
      exact ⟨s2, ⟨s1, h1, h3⟩, h4⟩
    · rintro ⟨s2, ⟨s1, h1, h3⟩, h4⟩
      exact ⟨s1, h1, ih.mpr ⟨s2, h3, h4⟩⟩

/-- one run after another -/
theorem exec_trans {s s' t : S} {as bs : List A} (h : exec step s as = some s')
    (h' : exec step s' bs = some t) : exec step s (as ++ bs) = some t :=
  exec_append.mpr ⟨s', h, h'⟩

theorem exec_single {s s' : S} {a : A} (h : step s a = some s') : exec step s [a] = some s' :=
  exec_cons.mpr ⟨s', h, rfl⟩

/-- What every step keeps, every run keeps. -/
theorem invariant {I : S → Prop} (hstep : ∀ s a s', I s → step s a = some s' → I s') {s t : S}
    {as : List A} (hs : I s) (hr : exec step s as = some t) : I t := by
  induction as generalizing s with
  | nil =>
    have h : s = t := exec_nil.mp hr
    exact h ▸ hs
  | cons a as ih =>
    obtain ⟨s', h1, h2⟩ := exec_cons.mp hr
    exact ih (hstep s a s' hs h1) h2

/-- What every step keeps whose action satisfies `G`, every run of such actions keeps. -/
theorem invariant_of_mem {G : A → Prop} {I : S → Prop}
    (hstep : ∀ s a s', I s → G a → step s a = some s' → I s') {s t : S} {as : List A}
    (hg : ∀ a ∈ as, G a) (hs : I s) (hr : exec step s as = some t) : I t := by
  induction as generalizing s with
  | nil =>
    have h : s = t := exec_nil.mp hr
    exact h ▸ hs
  | cons a as ih =>
    obtain ⟨s', h1, h2⟩ := exec_cons.mp hr
    exact ih (fun b hb => hg b (List.mem_cons_of_mem _ hb)) (hstep s a s' hs (hg a (List.mem_cons_self ..)) h1) h2

/-- A property of a run and the state it leads to, by induction on the last step. -/
theorem history {P : List A → S → Prop} {s : S} (hnil : P [] s)
    (hstep : ∀ as u a t, exec step s as = some u → P as u → step u a = some t → P (as ++ [a]) t)
    {as : List A} {t : S} (hr : exec step s as = some t) : P as t := by
  induction as using List.reverseRecOn generalizing t with
  | nil =>
    have h : s = t := exec_nil.mp hr
    exact h ▸ hnil
  | append_singleton as a ih =>
    obtain ⟨u, h1, h2⟩ := exec_append.mp hr
    obtain ⟨v, hv, hvt⟩ := exec_cons.mp h2
    cases hvt
    exact hstep as u a t h1 (ih h1) hv

/-- A run of the whole is a run of a part: the actions about the part, in order. -/
theorem project {T B : Type} {step' : T → B → Option T} (part : S → T) (about : A → Option B)
    (hsome : ∀ s a s' b, step s a = some s' → about a = some b → step' (part s) b = some (part s'))
    (hnone : ∀ s a s', step s a = some s' → about a = none → part s' = part s) {s t : S}
    {as : List A} (hr : exec step s as = some t) :
    exec step' (part s) (as.filterMap about) = some (part t) := by
  induction as generalizing s with
  | nil =>
    have h : s = t := exec_nil.mp hr
    rw [h]
    rfl
  | cons a as ih =>
    obtain ⟨s', h1, h2⟩ := exec_cons.mp hr
    have h3 := ih h2
    cases hb : about a with
    | none =>
      rw [List.filterMap_cons_none hb, ← hnone s a s' h1 hb]
      exact h3
    | some b =>
      rw [List.filterMap_cons_some hb]
      exact exec_cons.mpr ⟨part s', hsome s a s' b h1 hb, h3⟩

/-- What every step keeps while `G` holds of it, every run keeps in which `G` holds of every step. -/
theorem Along.invariant {G : S → A → Prop} {I : S → Prop}
    (hstep : ∀ s a s', I s → G s a → step s a = some s' → I s') {s t : S} {as : List A}
    (hg : Along step G s as) (hs : I s) (hr : exec step s as = some t) : I t := by
  induction as generalizing s with
  | nil =>
    have h : s = t := exec_nil.mp hr
    exact h ▸ hs
  | cons a as ih =>
    obtain ⟨s', h1, h2⟩ := exec_cons.mp hr
    exact ih (hg.2 s' h1) (hstep s a s' hs hg.1 h1) h2

/-- A run in which `G` holds of every step does not get stuck if no such step does. -/
theorem Along.runs {G : S → A → Prop} {I : S → Prop} (hstep : ∀ s a, I s → G s a → ∃ s', step s a = some s' ∧ I s')
    {s : S} {as : List A} (hg : Along step G s as) (hs : I s) : ∃ t, exec step s as = some t ∧ I t := by
  induction as generalizing s with
  | nil => exact ⟨s, rfl, hs⟩
  | cons a as ih =>
    obtain ⟨s', h1, hs'⟩ := hstep s a hs hg.1
    obtain ⟨t, h2, ht⟩ := ih (hg.2 s' h1) hs'
    exact ⟨t, exec_cons.mpr ⟨s', h1, h2⟩, ht⟩

/-- A property of the steps that follows from the invariant and the guard. -/
theorem Along.of_invariant {G P : S → A → Prop} {I : S → Prop}
    (hstep : ∀ s a s', I s → G s a → step s a = some s' → I s')
    (hP : ∀ s a, I s → G s a → P s a) {s : S} {as : List A} (hg : Along step G s as) (hs : I s) :
    Along step P s as := by
  induction as generalizing s with
  | nil => trivial
  | cons a as ih =>
    refine ⟨hP s a hs hg.1, fun s' h1 => ih (hg.2 s' h1) (hstep s a s' hs hg.1 h1)⟩

/-- What the invariant says holds of every state of a run. -/
theorem Along.throughout {G : S → A → Prop} {I : S → Prop}
    (hstep : ∀ s a s', I s → G s a → step s a = some s' → I s') {s : S} {as : List A}
    (hg : Along step G s as) (hs : I s) : Throughout step I s as := by
  intro bs t hb hr
  induction bs generalizing s as with
  | nil =>
    have he : s = t := exec_nil.mp hr
    exact he ▸ hs
  | cons b bs ih =>
    obtain ⟨as', rfl⟩ := hb
    obtain ⟨s', h1, h2⟩ := exec_cons.mp hr
    exact ih (hg.2 s' h1) (hstep s b s' hs hg.1 h1) (List.prefix_append bs as') h2

theorem Along.cons {P : S → A → Prop} {s t : S} {a : A} {as : List A} (hp : P s a)
    (hs : step s a = some t) (h : Along step P t as) : Along step P s (a :: as) := by
  refine ⟨hp, fun s' hs' => ?_⟩
  have he : t = s' := Option.some.inj (hs.symm.trans hs')
  exact he ▸ h

theorem along_cons_none {P : S → A → Prop} {s : S} {a : A} {as : List A} (hs : step s a = none) :
    Along step P s (a :: as) ↔ P s a :=
  ⟨fun h => h.1, fun h => ⟨h, fun s' hs' => by rw [hs] at hs'; cases hs'⟩⟩

theorem along_cons_some {P : S → A → Prop} {s t : S} {a : A} {as : List A} (hs : step s a = some t) :
    Along step P s (a :: as) ↔ P s a ∧ Along step P t as :=
  ⟨fun h => ⟨h.1, h.2 t hs⟩, fun h => .cons h.1 hs h.2⟩

/-- a property of the steps can be checked along a run -/
instance Along.decide {P : S → A → Prop} [∀ s a, Decidable (P s a)] :
    ∀ (s : S) (as : List A), Decidable (Along step P s as)
  | _, [] => isTrue trivial
  | s, a :: as =>
    match hs : step s a with
    | none => decidable_of_iff _ (along_cons_none hs).symm
    | some t =>
      have := Along.decide (P := P) t as
      decidable_of_iff _ (along_cons_some hs).symm

/-- a property of the actions alone -/
theorem along_iff_mem {G : A → Prop} {s t : S} {as : List A} (hr : exec step s as = some t) :
    Along step (fun _ a => G a) s as ↔ ∀ a ∈ as, G a := by
  induction as generalizing s with
  | nil => exact ⟨fun _ _ ha => (by cases ha), fun _ => trivial⟩
  | cons a as ih =>
    obtain ⟨s', h1, h2⟩ := exec_cons.mp hr
    rw [along_cons_some h1, ih h2, List.forall_mem_cons]

/-- the rest of a run -/
theorem Along.drop {P : S → A → Prop} {s t : S} {as bs : List A} (h : Along step P s (as ++ bs))
    (hr : exec step s as = some t) : Along step P t bs := by
  induction as generalizing s with
  | nil =>
    have hst : s = t := exec_nil.mp hr
    exact hst ▸ h
  | cons a as ih =>
    obtain ⟨s', h1, h2⟩ := exec_cons.mp hr
    exact ih (h.2 s' h1) h2

/-- A property that a step breaks, for good, exactly if `G` does not hold of it: it holds at the end of
a run exactly if `G` holds all along. -/
theorem iff_along {G : S → A → Prop} {I Q : S → Prop}
    (hstep : ∀ s a s', I s → step s a = some s' → I s')
    (hkeep : ∀ s a s', I s → step s a = some s' → G s a → Q s → Q s')
    (hbreak : ∀ s a s', I s → step s a = some s' → Q s' → Q s ∧ G s a) {s t : S} {as : List A}
    (hs : I s) (hq : Q s) (hr : exec step s as = some t) : Q t ↔ Along step G s as := by
  induction as generalizing s with
  | nil =>
    have h : s = t := exec_nil.mp hr
    exact ⟨fun _ => trivial, fun _ => h ▸ hq⟩
  | cons a as ih =>
    obtain ⟨s', h1, h2⟩ := exec_cons.mp hr
    have hs' := hstep s a s' hs h1
    constructor
    · intro ht
      -- what holds at the end has never been broken
      have back : ∀ (bs : List A) (u : S), I u → exec step u bs = some t → Q u := by
        intro bs
        induction bs with
        | nil =>
          intro u _ hu
          have he : u = t := exec_nil.mp hu
          exact he ▸ ht
        | cons b bs ihb =>
          intro u hu hut
          obtain ⟨v, hv, hvt⟩ := exec_cons.mp hut
          exact (hbreak u b v hu hv (ihb v (hstep u b v hu hv) hvt)).1
      have hq' := back as s' hs' h2
      exact .cons (hbreak s a s' hs h1 hq').2 h1 ((ih hs' hq' h2).mp ht)
    · intro h
      have hq' := hkeep s a s' hs h1 h.1 hq
      exact (ih hs' hq' h2).mpr (h.2 s' h1)

theorem throughout_cons {Q : S → Prop} {s s' : S} {a : A} {as : List A} (hs : step s a = some s') :
    Throughout step Q s (a :: as) ↔ Q s ∧ Throughout step Q s' as := by
  constructor
  · intro h
    refine ⟨h [] s (List.nil_prefix) rfl, fun bs t hb hr => ?_⟩
    exact h (a :: bs) t (List.cons_prefix_cons.mpr ⟨rfl, hb⟩) (exec_cons.mpr ⟨s', hs, hr⟩)
  · intro h bs t hb hr
    cases bs with
    | nil =>
      have he : s = t := exec_nil.mp hr
      exact he ▸ h.1
    | cons b bs =>
      obtain ⟨rfl, hbs⟩ := List.cons_prefix_cons.mp hb
      obtain ⟨s1, h1, h2⟩ := exec_cons.mp hr
      have he : s' = s1 := Option.some.inj (hs.symm.trans h1)
      exact h.2 bs t hbs (he ▸ h2)

/-- A property of the steps that follows from one of the states and one of the steps. -/
theorem Throughout.along {P G : S → A → Prop} {Q : S → Prop} (hG : ∀ s a, Q s → P s a → G s a) {s : S}
    {as : List A} (hq : Throughout step Q s as) (hp : Along step P s as) : Along step G s as := by
  induction as generalizing s with
  | nil => trivial
  | cons a as ih =>
    refine ⟨hG s a (hq [] s List.nil_prefix rfl) hp.1, fun s' h1 => ?_⟩
    exact ih ((throughout_cons h1).mp hq).2 (hp.2 s' h1)

/-- A property that a step breaks exactly if `G` does not hold of it holds throughout a run exactly if
`G` holds all along. -/
theorem throughout_iff_along {G : S → A → Prop} {I Q : S → Prop}
    (hstep : ∀ s a s', I s → step s a = some s' → I s')
    (hiff : ∀ s a s', I s → Q s → step s a = some s' → (Q s' ↔ G s a)) {s t : S} {as : List A}
    (hs : I s) (hq : Q s) (hr : exec step s as = some t) :
    Throughout step Q s as ↔ Along step G s as := by
  induction as generalizing s with
  | nil =>
    refine ⟨fun _ => trivial, fun _ bs u hb hu => ?_⟩
    rw [List.prefix_nil.mp hb] at hu
    have he : s = u := exec_nil.mp hu
    exact he ▸ hq
  | cons a as ih =>
    obtain ⟨s', h1, h2⟩ := exec_cons.mp hr
    have hs' := hstep s a s' hs h1
    have hQ : Throughout step Q s' as → Q s' := fun h => h [] s' List.nil_prefix rfl
    rw [throughout_cons h1, along_cons_some h1, ← hiff s a s' hs hq h1]
    constructor
    · intro h
      have hq' := hQ h.2
      exact ⟨hq', (ih hs' hq' h2).mp h.2⟩
    · intro h
      exact ⟨hq, (ih hs' h.1 h2).mpr h.2⟩

end
end Lts
end Pharoah
