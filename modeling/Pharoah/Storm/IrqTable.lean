import Pharoah.Storm.Accounting

/-!
# The interrupt table: accesses

`irq_ptrs` has 20 entries, the library declares 21 pins, and `irq_callback` lets an index of 20 pass.

* `Act.entry`   the entry of the table that a call accesses;
* `InTable`     every access so far was inside the table, and no task was added for an index outside;
* `Act.Fits`    the condition: the call is not about `GP0`, and its index is not 20.

`in_table_iff`: **every access of a run over declared pins is inside the table if and only if every call
`Fits`**.
-/

namespace Pharoah
namespace Storm

open Lts

/-- the pin that a call is about -/
def Act.pin : Act → Option Pin
  | .enable_irq pin _ _ => some pin
  | .disable_irq pin => some pin
  | _ => none

/-- the entry of `irq_ptrs` that a call accesses -/
def Act.entry : Act → Option Nat
  | .enable_irq pin _ _ => some pin.idx
  | .disable_irq pin => some pin.idx
  | .irq_callback idx => if idx ≤ 20 then some idx else none
  | _ => none

/-- Every access was inside the table, and every task that an interrupt has added is for an entry. -/
def InTable (w : World) : Prop :=
  (∀ i ∈ w.gpio.touched, i < irq_entries) ∧
    ∀ t ∈ w.tq.added, ∀ idx, t.origin = .irq idx → idx < irq_entries

/-- The call is not about `GP0`, and no delivery for the index 20. -/
def Act.Fits (a : Act) : Prop := a.pin ≠ some .GP0 ∧ a ≠ .irq_callback 20

instance (a : Act) : Decidable a.Fits := inferInstanceAs (Decidable (_ ∧ _))

namespace Gpio

theorem mem_touched_disable (g : Gpio) (pin : Pin) {i : Nat} :
    i ∈ (g.disable_irq pin).touched ↔ i ∈ g.touched ∨ pin.idx = i := by
  unfold disable_irq
  split <;> simp [eq_comm]

theorem mem_touched_enable (g : Gpio) (pin : Pin) (edge : Nat) (callback : Option Fn) {i : Nat} :
    i ∈ (g.enable_irq pin edge callback).touched ↔ i ∈ g.touched ∨ pin.idx = i := by
  show i ∈ (g.disable_irq pin).touched ++ [pin.idx] ↔ _
  rw [List.mem_append, mem_touched_disable, List.mem_singleton, eq_comm (a := i), or_assoc, or_self]

theorem mem_touched_callback (g : Gpio) (idx : Nat) {i : Nat} :
    i ∈ (g.irq_callback idx).1.touched ↔ i ∈ g.touched ∨ idx ≤ 20 ∧ idx = i := by
  unfold irq_callback
  split
  · next h => split <;> simp [h, eq_comm]
  · next h => simp [h]

end Gpio

section
variable {w w' : World}

/-- other calls leave the table and the kernel's side of it alone -/
theorem gpio_other {a : Act} (hs : w.step a = some w') (hp : a.pin = none)
    (hc : ∀ idx, a ≠ .irq_callback idx) : w'.gpio = w.gpio := by
  obtain ⟨q, st, hq⟩ := w.fireFront_control
  cases World.step_cases hs with
  | enable_irq pin edge callback => cases hp
  | disable_irq pin => cases hp
  | irq_callback idx => exact absurd rfl (hc idx)
  | run_one hm hn => rw [hq]
  | fire rest hst => rw [hq]
  | _ => rfl

/-- **What a step accesses.** -/
theorem mem_touched {a : Act} (hs : w.step a = some w') {i : Nat} :
    i ∈ w'.gpio.touched ↔ i ∈ w.gpio.touched ∨ a.entry = some i := by
  have other : w'.gpio = w.gpio → a.entry = none →
      (i ∈ w'.gpio.touched ↔ i ∈ w.gpio.touched ∨ a.entry = some i) := by
    intro hg he
    rw [hg, he]
    exact ⟨Or.inl, fun h => h.elim id fun h => by cases h⟩
  cases a with
  | enable_irq pin edge callback =>
    cases World.step_cases hs
    show i ∈ (w.gpio.enable_irq pin edge callback).touched ↔ _ ∨ some pin.idx = some i
    rw [Gpio.mem_touched_enable, Option.some_inj]
  | disable_irq pin =>
    cases World.step_cases hs
    show i ∈ (w.gpio.disable_irq pin).touched ↔ _ ∨ some pin.idx = some i
    rw [Gpio.mem_touched_disable, Option.some_inj]
  | irq_callback idx =>
    cases World.step_cases hs
    show i ∈ (w.gpio.irq_callback idx).1.touched ↔ _ ∨ (if idx ≤ 20 then some idx else none) = some i
    rw [Gpio.mem_touched_callback, Option.ite_none_right_eq_some, Option.some_inj]
  | _ => exact other (gpio_other hs rfl (fun idx => by simp)) rfl

/-- what is in the queue was added before, or by the step -/
theorem Turn.added {W : Prop} {A : Fn → Origin → Prop} {q q' : Tq} {st st' : List Frame}
    (ht : Turn W A q st q' st') {t : Task} (h : t ∈ q'.added) : t ∈ q.added ∨ A t.target t.origin := by
  cases ht with
  | add f o ha _ =>
    obtain h | h := List.mem_append.mp h
    · exact Or.inl h
    · rw [List.mem_singleton.mp h]
      exact Or.inr ha
  | _ => exact Or.inl h

theorem Turn.added_mono {W : Prop} {A : Fn → Origin → Prop} {q q' : Tq} {st st' : List Frame}
    (ht : Turn W A q st q' st') {t : Task} (h : t ∈ q.added) : t ∈ q'.added := by
  cases ht with
  | add f o _ _ => exact List.mem_append_left _ h
  | _ => exact h

/-- an interrupt adds a task for an index that passes its check -/
theorem irq_adds {a : Act} {f : Fn} {idx : Nat} (h : w.Adds a f (.irq idx)) :
    a = .irq_callback idx ∧ a.entry = some idx := by
  unfold World.Adds at h
  split at h
  · cases h.2
  · obtain ⟨t, -, ht⟩ := h
    cases ht
  · next i =>
    obtain ⟨hf, hi⟩ := h
    cases hi
    refine ⟨rfl, ?_⟩
    show (if idx ≤ 20 then some idx else none) = some idx
    by_cases hle : idx ≤ 20
    · rw [if_pos hle]
    · unfold Gpio.irq_callback at hf
      rw [if_neg hle] at hf
      cases hf
  · cases h

/-- **One step** stays in the table iff its access does. -/
theorem inTable_step {a : Act} (hs : w.step a = some w') :
    InTable w' ↔ InTable w ∧ ∀ i, a.entry = some i → i < irq_entries := by
  have hturn := step_turn hs
  constructor
  · intro h
    refine ⟨⟨fun i hi => h.1 i ((mem_touched hs).mpr (Or.inl hi)), fun t ht => h.2 t ?_⟩, fun i hi => ?_⟩
    · exact hturn.added_mono ht
    · exact h.1 i ((mem_touched hs).mpr (Or.inr hi))
  · intro h
    obtain ⟨⟨ht, ha⟩, he⟩ := h
    refine ⟨fun i hi => ?_, fun t hmem idx ho => ?_⟩
    · obtain hi | hi := (mem_touched hs).mp hi
      · exact ht i hi
      · exact he i hi
    · obtain hmem | hadd := hturn.added hmem
      · exact ha t hmem idx ho
      · rw [ho] at hadd
        exact he idx (irq_adds hadd).2

end

/-- The entries of declared pins but `GP0` are in the table, and those of `GP0` and of the index 20 are
not. -/
theorem fits_iff {a : Act} (hp : ∀ pin ∈ a.pin, pin ∈ pins) :
    (∀ i, a.entry = some i → i < irq_entries) ↔ a.Fits := by
  have hidx : ∀ pin ∈ pins, pin.idx < irq_entries ↔ pin ≠ .GP0 := by decide
  have named : ∀ {pin : Pin}, a.pin = some pin → a.entry = some pin.idx → (∀ i, a ≠ .irq_callback i) →
      ((∀ i, a.entry = some i → i < irq_entries) ↔ a.Fits) := by
    intro pin hpin hent hno
    unfold Act.Fits
    rw [hent, hpin, and_iff_left (hno 20), ne_eq, Option.some_inj, ← ne_eq, ← hidx pin (hp pin hpin)]
    exact ⟨fun h => h _ rfl, fun h i hi => Option.some.inj hi ▸ h⟩
  cases a with
  | enable_irq pin edge callback => exact named rfl rfl (fun i => by simp)
  | disable_irq pin => exact named rfl rfl (fun i => by simp)
  | irq_callback idx =>
    unfold Act.Fits Act.entry
    rw [and_iff_right (by simp [Act.pin])]
    constructor
    · intro h he
      cases he
      have hlt := h 20 rfl
      exact absurd hlt (by decide)
    · intro h i hi
      obtain ⟨hle, hi⟩ := Option.ite_none_right_eq_some.mp hi
      cases hi
      have hne : idx ≠ 20 := fun he => h (he ▸ rfl)
      unfold irq_entries
      omega
  | _ => exact ⟨fun _ => ⟨fun h => (by cases h), fun h => (by cases h)⟩, fun _ i hi => by cases hi⟩

/-- **Accesses to the interrupt table**: in a run over the pins that the library declares, with
deliveries for any index, every access is inside the table, and no task is added for an index outside,
if and only if `GP0` is neither enabled nor disabled and nothing is delivered for the index 20. -/
theorem in_table_iff (as : List Act) (hp : ∀ a ∈ as, ∀ pin ∈ a.pin, pin ∈ pins) (w : World)
    (hr : World.runs as = some w) : InTable w ↔ ∀ a ∈ as, a.Fits := by
  have hrun : InTable w ↔ Along World.step (fun _ a => ∀ i, a.entry = some i → i < irq_entries) {} as := by
    refine iff_along (I := fun _ => True) (fun _ _ _ _ _ => trivial) ?_ ?_ trivial ?_ hr
    · exact fun s a s' _ hs hg hq => (inTable_step hs).mpr ⟨hq, hg⟩
    · exact fun s a s' _ hs hq => (inTable_step hs).mp hq
    · exact ⟨fun _ hi => (by cases hi), fun _ ht => (by cases ht)⟩
  rw [hrun, along_iff_mem hr]
  exact forall₂_congr fun a ha => fits_iff (hp a ha)

/-- two pins and interrupts for every kind of index -/
def pinRun : List Act :=
  [.mkFn, .enable_irq .D2 1 (some 0), .enable_irq .A5 2 (some 0), .k_wait_callback, .irq_callback 2,
   .irq_callback 21, .irq_callback (2 ^ 32 - 1), .ret, .disable_irq .A5, .run_one]

theorem in_table_pins : ∃ w, World.runs pinRun = some w ∧ InTable w :=
  ⟨_, rfl, (in_table_iff pinRun (by decide) _ rfl).mpr (by decide)⟩

/-- The last pin has no entry. -/
theorem gp0_outside : ¬ ∀ (as : List Act), (∀ a ∈ as, ∀ pin ∈ a.pin, pin ∈ pins) →
    ∀ w, World.runs as = some w → InTable w := by
  intro h
  have hin := (h [.mkFn, .enable_irq .GP0 1 (some 0)] (by decide) _ rfl).1 20 (by decide)
  exact absurd hin (by decide)

end Storm
end Pharoah
