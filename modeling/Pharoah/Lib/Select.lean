import Mathlib.Data.List.Basic

/-!
# Selecting the most specialised rule

Several rules may apply to an input.  Each rule `p` is compared with each rule `q` by `Le p q` ("`p`
is at least as specialised as `q`"), and the rule that is selected is the one that applies and is
more specialised than every other rule that applies.

* `Selected rules Applies Le s p`   `p` is selected for `s`;
* `select`                          the selection, computed;
* `Selected.unique`                 at most one rule is selected;
* `exists_selected`                 **some rule is selected, if the rules that apply have common
                                    refinements**.

Nothing here names a program.
-/

namespace Pharoah
namespace Select

section
variable {P S : Type} (rules : List P) (Applies : P → S → Prop) (Le : P → P → Prop)

/-- the rule that applies to `s` and is more specialised than every other one that does -/
def Selected (s : S) (p : P) : Prop :=
  p ∈ rules ∧ Applies p s ∧ ∀ q ∈ rules, Applies q s → q ≠ p → Le p q ∧ ¬ Le q p

variable {rules Applies Le}

theorem Selected.unique {s : S} {p q : P} (hp : Selected rules Applies Le s p)
    (hq : Selected rules Applies Le s q) : p = q := by
  by_contra hne
  have h1 := (hp.2.2 q hq.1 hq.2.1 (Ne.symm hne)).1
  exact (hq.2.2 p hp.1 hp.2.1 hne).2 h1

/-- Finitely many rules with common refinements have one that refines them all. -/
theorem exists_le_all (htrans : ∀ p q r, Le p q → Le q r → Le p r) {s : S}
    (hmeet : ∀ p ∈ rules, ∀ q ∈ rules, Applies p s → Applies q s →
      ∃ r ∈ rules, Applies r s ∧ Le r p ∧ Le r q)
    {p : P} (hp : p ∈ rules) (ha : Applies p s) {l : List P} (hl : ∀ q ∈ l, q ∈ rules) :
    ∃ r ∈ rules, Applies r s ∧ ∀ q ∈ l, Applies q s → Le r q := by
  induction l with
  | nil => exact ⟨p, hp, ha, fun q hq => absurd hq (by simp)⟩
  | cons q l ih =>
    obtain ⟨r, hr, har, h⟩ := ih fun q' hq' => hl q' (List.mem_cons_of_mem _ hq')
    by_cases haq : Applies q s
    · obtain ⟨r', hr', har', h1, h2⟩ := hmeet r hr q (hl q (List.mem_cons_self ..)) har haq
      refine ⟨r', hr', har', fun q' hq' haq' => ?_⟩
      rcases List.mem_cons.mp hq' with rfl | hq'
      · exact h2
      · exact htrans r' r q' h1 (h q' hq' haq')
    · refine ⟨r, hr, har, fun q' hq' haq' => ?_⟩
      rcases List.mem_cons.mp hq' with rfl | hq'
      · exact absurd haq' haq
      · exact h q' hq' haq'

theorem exists_selected (htrans : ∀ p q r, Le p q → Le q r → Le p r)
    (hanti : ∀ p ∈ rules, ∀ q ∈ rules, Le p q → Le q p → p = q) {s : S}
    (hmeet : ∀ p ∈ rules, ∀ q ∈ rules, Applies p s → Applies q s →
      ∃ r ∈ rules, Applies r s ∧ Le r p ∧ Le r q)
    {p : P} (hp : p ∈ rules) (ha : Applies p s) : ∃ r, Selected rules Applies Le s r := by
  obtain ⟨r, hr, har, h⟩ := exists_le_all htrans hmeet hp ha (fun q hq => hq)
  refine ⟨r, hr, har, fun q hq haq hne => ⟨h q hq haq, fun hle => ?_⟩⟩
  exact hne (hanti q hq r hr hle (h q hq haq))

/-! ## computing the selection -/

variable [DecidableEq P]

variable (rules Applies Le) in
def select [∀ p s, Decidable (Applies p s)] [∀ p q, Decidable (Le p q)] (s : S) : Option P :=
  rules.find? fun p => decide (Applies p s ∧ ∀ q ∈ rules, Applies q s → q ≠ p → Le p q ∧ ¬ Le q p)

theorem select_eq_some [∀ p s, Decidable (Applies p s)] [∀ p q, Decidable (Le p q)] {s : S} {p : P} :
    select rules Applies Le s = some p ↔ Selected rules Applies Le s p := by
  have hsound : ∀ {q}, select rules Applies Le s = some q → Selected rules Applies Le s q :=
    fun h => ⟨List.mem_of_find?_eq_some h, by simpa using List.find?_some h⟩
  refine ⟨hsound, fun hp => ?_⟩
  cases h : select rules Applies Le s with
  | none => exact absurd hp.2 (by simpa using List.find?_eq_none.mp h p hp.1)
  | some q => rw [(hsound h).unique hp]

end

end Select
end Pharoah
