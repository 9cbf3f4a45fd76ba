import Mathlib.Logic.Basic

/-!
# Programs over a state that may throw

A program is an `EStateM ε σ α`: it changes a state and either returns a value or throws, and
what it has changed before the throw stays changed.  The rules below are for any state and any
error:

* `final r`        the state in which a result leaves the program, returned or thrown;
* `Moves T m`      `m` moves every state along the relation `T`;
* `Keeps I E m`    from a state in `I`, `m` ends in `I` or throws an error in `E`;
* `Logs log P m`   `m` only adds entries to a log in the state, and `P` holds of what it added and
                   of how it ended;
* `Rel R`          two results with the same outcome and `R`-related states;
* `Sim R m n`      `m` and `n`, started in related states, end in related results;
* `SimUnless B R m n`  the same, for the runs of `m` that do not end in a `B` state.

Each of them has a rule for `pure`, `throw` and `>>=`, and nothing here names a program.
-/

namespace Pharoah
namespace Prog

section
variable {ε σ τ α β : Type}

/-- The state a program is left in, whether it returned or threw. -/
def final : EStateM.Result ε σ α → σ
  | .ok _ s => s
  | .error _ s => s

/-- Did the program return? -/
def returned : EStateM.Result ε σ α → Bool
  | .ok _ _ => true
  | .error _ _ => false

@[simp] theorem final_ok (a : α) (s : σ) : final (.ok a s : EStateM.Result ε σ α) = s := rfl
@[simp] theorem final_error (e : ε) (s : σ) : final (.error e s : EStateM.Result ε σ α) = s := rfl

theorem pure_apply (a : α) (s : σ) : (pure a : EStateM ε σ α) s = .ok a s := rfl

theorem modify_apply (f : σ → σ) (s : σ) : (modify f : EStateM ε σ PUnit) s = .ok ⟨⟩ (f s) := rfl

theorem get_bind (k : σ → EStateM ε σ β) (s : σ) : ((get : EStateM ε σ σ) >>= k) s = k s s := rfl

theorem bind_ok {m : EStateM ε σ α} {k : α → EStateM ε σ β} {s s' : σ} {a : α}
    (h : m s = .ok a s') : (m >>= k) s = k a s' := by
  show EStateM.bind m k s = _
  simp only [EStateM.bind, h]

theorem bind_error {m : EStateM ε σ α} {k : α → EStateM ε σ β} {s s' : σ} {e : ε}
    (h : m s = .error e s') : (m >>= k) s = .error e s' := by
  show EStateM.bind m k s = _
  simp only [EStateM.bind, h]

/-- a program that ends well has ended well in both of its parts -/
theorem bind_eq_ok {m : EStateM ε σ α} {k : α → EStateM ε σ β} {s s' : σ} {b : β} :
    (m >>= k) s = .ok b s' ↔ ∃ a t, m s = .ok a t ∧ k a t = .ok b s' := by
  constructor
  · intro h
    cases hm : m s with
    | ok a t => exact ⟨a, t, rfl, by rw [← h, bind_ok hm]⟩
    | error e t =>
      rw [bind_error hm] at h
      cases h
  · rintro ⟨a, t, hm, hk⟩
    rw [bind_ok hm, hk]

theorem bind_pure_unit (m : EStateM ε σ Unit) (s : σ) : (m >>= fun _ => pure ()) s = m s := by
  cases h : m s with
  | ok a s' => rw [bind_ok h]; rfl
  | error e s' => rw [bind_error h]

/-! ## moving the state along a relation -/

/-- `m` takes every state `s` to a state `T`-related to it. -/
def Moves (T : σ → σ → Prop) (m : EStateM ε σ α) : Prop := ∀ s, T s (final (m s))

variable {T : σ → σ → Prop}

theorem Moves.pure (hr : ∀ s, T s s) (a : α) : Moves T (pure a : EStateM ε σ α) := fun s => hr s

theorem Moves.throw (hr : ∀ s, T s s) (e : ε) : Moves T (throw e : EStateM ε σ α) :=
  fun s => hr s

theorem Moves.modify {f : σ → σ} (h : ∀ s, T s (f s)) :
    Moves T (modify f : EStateM ε σ PUnit) := h

theorem Moves.bind (ht : ∀ a b c, T a b → T b c → T a c) {m : EStateM ε σ α}
    {k : α → EStateM ε σ β} (hm : Moves T m) (hk : ∀ a, Moves T (k a)) : Moves T (m >>= k) := by
  intro s
  have h1 := hm s
  cases h : m s with
  | ok a s' =>
    rw [h] at h1
    rw [bind_ok h]
    exact ht _ _ _ h1 (hk a s')
  | error e s' =>
    rw [h] at h1
    rw [bind_error h]
    exact h1

/-! ## keeping an invariant -/

/-- From every state in `I`, `m` returns in a state in `I`, or it throws an error in `E`. -/
def Keeps (I : σ → Prop) (E : ε → Prop) (m : EStateM ε σ α) : Prop :=
  ∀ s, I s → (∀ a s', m s = .ok a s' → I s') ∧ ∀ e s', m s = .error e s' → E e

section
variable {I : σ → Prop} {E : ε → Prop}

theorem Keeps.pure (a : α) : Keeps I E (pure a : EStateM ε σ α) :=
  fun _ hs => ⟨fun _ _ h => (by cases h; exact hs), fun _ _ h => (by cases h)⟩

theorem Keeps.throw {e : ε} (he : E e) : Keeps I E (throw e : EStateM ε σ α) :=
  fun _ _ => ⟨fun _ _ h => (by cases h), fun _ _ h => (by cases h; exact he)⟩

theorem Keeps.bind {m : EStateM ε σ α} {k : α → EStateM ε σ β} (hm : Keeps I E m)
    (hk : ∀ a, Keeps I E (k a)) : Keeps I E (m >>= k) := by
  intro s hs
  obtain ⟨hok, herr⟩ := hm s hs
  cases h : m s with
  | ok a s' =>
    rw [bind_ok h]
    exact hk a s' (hok a s' h)
  | error e s' =>
    rw [bind_error h]
    exact ⟨fun _ _ h' => (by cases h'), fun e' s'' h' => (by cases h'; exact herr e s' h)⟩

end

/-! ## what a program adds to a log -/

/-- the error a program ended with -/
def thrown : EStateM.Result ε σ α → Option ε
  | .ok _ _ => none
  | .error e _ => some e

/-- From every state `m` adds a list of entries to the log, such that `P` holds of the list and of
the way `m` ends. -/
def Logs (log : σ → List β) (P : List β → Option ε → Prop) (m : EStateM ε σ α) : Prop :=
  ∀ s, ∃ l, log (final (m s)) = log s ++ l ∧ P l (thrown (m s))

section
variable {γ : Type} {log : σ → List β} {P Q : List β → Option ε → Prop}

theorem Logs.pure (h : P [] none) (a : α) : Logs log P (pure a : EStateM ε σ α) :=
  fun _ => ⟨[], (List.append_nil _).symm, h⟩

theorem Logs.modify {f : σ → σ} {l : List β} (hf : ∀ s, log (f s) = log s ++ l) (h : P l none) :
    Logs log P (modify f : EStateM ε σ PUnit) := fun s => ⟨l, hf s, h⟩

theorem Logs.imp {m : EStateM ε σ α} (h : Logs log P m) (hPQ : ∀ l r, P l r → Q l r) :
    Logs log Q m := by
  intro s
  obtain ⟨l, hl, hP⟩ := h s
  exact ⟨l, hl, hPQ l _ hP⟩

/-- what a returned prefix has added comes before what the rest adds -/
theorem Logs.seq {R : List β → Option ε → Prop} (hok : ∀ l l' r, P l none → Q l' r → R (l ++ l') r)
    (herr : ∀ l e, P l (some e) → R l (some e)) {m : EStateM ε σ α} {k : α → EStateM ε σ γ}
    (hm : Logs log P m) (hk : ∀ a, Logs log Q (k a)) : Logs log R (m >>= k) := by
  intro s
  obtain ⟨l, hl, hP⟩ := hm s
  cases h : m s with
  | ok a s' =>
    rw [h] at hl hP
    obtain ⟨l', hl', hQ⟩ := hk a s'
    rw [bind_ok h]
    refine ⟨l ++ l', ?_, hok l l' _ hP hQ⟩
    rw [hl', ← List.append_assoc]
    exact congrArg (· ++ l') hl
  | error e s' =>
    rw [h] at hl hP
    rw [bind_error h]
    exact ⟨l, hl, herr l e hP⟩

theorem Logs.bind (happ : ∀ l l' r, P l none → P l' r → P (l ++ l') r) {m : EStateM ε σ α}
    {k : α → EStateM ε σ γ} (hm : Logs log P m) (hk : ∀ a, Logs log P (k a)) :
    Logs log P (m >>= k) := hm.seq happ (fun _ _ h => h) hk

end

/-! ## two programs side by side -/

/-- Same outcome, related states. -/
def Rel (R : σ → τ → Prop) : EStateM.Result ε σ α → EStateM.Result ε τ α → Prop
  | .ok a s, .ok b t => a = b ∧ R s t
  | .error e s, .error e' t => e = e' ∧ R s t
  | _, _ => False

variable {R : σ → τ → Prop}

theorem Rel.final {x : EStateM.Result ε σ α} {y : EStateM.Result ε τ α} (h : Rel R x y) :
    R (Prog.final x) (Prog.final y) := by
  cases x <;> cases y <;> first | exact h.2 | exact h.elim

theorem Rel.returned {x : EStateM.Result ε σ α} {y : EStateM.Result ε τ α} (h : Rel R x y) :
    Prog.returned x = Prog.returned y := by
  cases x <;> cases y <;> first | rfl | exact h.elim

theorem Rel.ok {x : EStateM.Result ε σ α} {a : α} {t : τ} (h : Rel R x (.ok a t)) :
    ∃ s, x = .ok a s ∧ R s t := by
  cases x with
  | ok b s =>
    obtain ⟨rfl, hR⟩ := h
    exact ⟨s, rfl, hR⟩
  | error e s => exact h.elim

theorem Rel.bind {m : EStateM ε σ α} {n : EStateM ε τ α} {k : α → EStateM ε σ β}
    {l : α → EStateM ε τ β} {s : σ} {t : τ} (h : Rel R (m s) (n t))
    (hk : ∀ a s' t', R s' t' → Rel R (k a s') (l a t')) : Rel R ((m >>= k) s) ((n >>= l) t) := by
  cases hm : m s with
  | ok a s' =>
    cases hn : n t with
    | ok b t' =>
      rw [hm, hn] at h
      obtain ⟨rfl, hR⟩ := h
      rw [bind_ok hm, bind_ok hn]
      exact hk a s' t' hR
    | error e t' => rw [hm, hn] at h; exact h.elim
  | error e s' =>
    cases hn : n t with
    | ok b t' => rw [hm, hn] at h; exact h.elim
    | error e' t' =>
      rw [hm, hn] at h
      rw [bind_error hm, bind_error hn]
      exact h

/-- From related states to related results. -/
def Sim (R : σ → τ → Prop) (m : EStateM ε σ α) (n : EStateM ε τ α) : Prop :=
  ∀ s t, R s t → Rel R (m s) (n t)

theorem Sim.pure (a : α) : Sim R (pure a : EStateM ε σ α) (pure a : EStateM ε τ α) :=
  fun _ _ h => ⟨rfl, h⟩

theorem Sim.throw (e : ε) : Sim R (throw e : EStateM ε σ α) (throw e : EStateM ε τ α) :=
  fun _ _ h => ⟨rfl, h⟩

theorem Sim.modify {f : σ → σ} {g : τ → τ} (h : ∀ s t, R s t → R (f s) (g t)) :
    Sim R (modify f : EStateM ε σ PUnit) (modify g : EStateM ε τ PUnit) :=
  fun s t hR => ⟨rfl, h s t hR⟩

theorem Sim.bind {m : EStateM ε σ α} {n : EStateM ε τ α} {k : α → EStateM ε σ β}
    {l : α → EStateM ε τ β} (h : Sim R m n) (hk : ∀ a, Sim R (k a) (l a)) :
    Sim R (m >>= k) (n >>= l) :=
  fun s t hR => Rel.bind (h s t hR) (fun a s' t' h' => hk a s' t' h')

/-! ## two programs side by side, up to a bad state -/

/-- Related results, unless `m` ends in a state where `B` holds. -/
def SimUnless (B : σ → Prop) (R : σ → τ → Prop) (m : EStateM ε σ α) (n : EStateM ε τ α) : Prop :=
  ∀ s t, R s t → ¬ B (final (m s)) → Rel R (m s) (n t)

variable {B : σ → Prop}

theorem Sim.unless {m : EStateM ε σ α} {n : EStateM ε τ α} (h : Sim R m n) : SimUnless B R m n :=
  fun s t hR _ => h s t hR

/-- `B` must persist: once a prefix of the run is bad, the whole run is. -/
theorem SimUnless.bind (hB : ∀ s s', T s s' → B s → B s') {m : EStateM ε σ α}
    {n : EStateM ε τ α} {k : α → EStateM ε σ β} {l : α → EStateM ε τ β}
    (h : SimUnless B R m n) (hk : ∀ a, SimUnless B R (k a) (l a)) (hT : ∀ a, Moves T (k a)) :
    SimUnless B R (m >>= k) (n >>= l) := by
  intro s t hR hn
  cases hm : m s with
  | ok a s' =>
    rw [bind_ok hm] at hn
    have hs' : ¬ B s' := fun hb => hn (hB _ _ (hT a s') hb)
    have h1 := h s t hR (by rw [hm]; exact hs')
    rw [hm] at h1
    cases hn' : n t with
    | ok b t' =>
      rw [hn'] at h1
      obtain ⟨rfl, hR'⟩ := h1
      rw [bind_ok hm, bind_ok hn']
      exact hk a s' t' hR' hn
    | error e t' => rw [hn'] at h1; exact h1.elim
  | error e s' =>
    rw [bind_error hm] at hn
    have h1 := h s t hR (by rw [hm]; exact hn)
    rw [hm] at h1
    cases hn' : n t with
    | ok b t' => rw [hn'] at h1; exact h1.elim
    | error e' t' =>
      rw [hn'] at h1
      rw [bind_error hm, bind_error hn']
      exact h1

end
end Prog
end Pharoah
