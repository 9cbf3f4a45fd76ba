import Mathlib.Logic.Function.Basic

/-!
# Leases

A server leases ids to objects and knows who holds which; each object remembers the id that it
believes to hold.

* `Backed table claim`    an object that holds an id for the server believes so;
* `Held table claim`      an object that believes to hold an id does hold it for the server;
* `grant`, `revoke`       a lease that begins or ends on both sides at once keeps either;
* `pretend`, `occupy`     a lease that begins on one side only keeps one of them;
* `Backed.held_iff`       each follows from the other if every believer holds some id;
* `Held.unique`           no two objects believe to hold one id;
* `claims id flag objs`   the claims of objects in a list, each with its id and a flag.
-/

namespace Pharoah

section
variable {I O : Type} {table : I → Option O} {claim : O → Option I} {o o' : O} {i : I}

/-- Every lease in `table` is believed in by its holder. -/
def Backed (table : I → Option O) (claim : O → Option I) : Prop :=
  ∀ o i, table i = some o → claim o = some i

/-- What an object believes to hold, it holds. -/
def Held (table : I → Option O) (claim : O → Option I) : Prop :=
  ∀ o i, claim o = some i → table i = some o

/-! ## what the server knows is believed -/

namespace Backed

theorem empty : Backed (fun _ : I => (none : Option O)) (fun _ => none) := fun _ _ h => (by cases h)

/-- an object without a claim holds nothing -/
theorem absent (h : Backed table claim) (ho : claim o = none) : table i ≠ some o := by
  intro hi
  rw [h o i hi] at ho
  cases ho

/-- Then what is believed is so if every believer holds some id. -/
theorem held_iff (h : Backed table claim) :
    Held table claim ↔ ∀ o i, claim o = some i → ∃ j, table j = some o := by
  refine ⟨fun hh o i ho => ⟨i, hh o i ho⟩, fun hall o i ho => ?_⟩
  obtain ⟨j, hj⟩ := hall o i ho
  have hij : j = i := Option.some.inj ((h o j hj).symm.trans ho)
  exact hij ▸ hj

variable [DecidableEq O]

/-- an object comes to believe that it holds an id -/
theorem pretend (h : Backed table claim) (ho : claim o = none) :
    Backed table (Function.update claim o (some i)) := by
  intro p j hj
  have hp : p ≠ o := fun e => h.absent ho (e ▸ hj)
  rw [Function.update_of_ne hp]
  exact h p j hj

variable [DecidableEq I]

theorem grant (h : Backed table claim) (ho : claim o = none) :
    Backed (Function.update table i (some o)) (Function.update claim o (some i)) := by
  intro p j hj
  by_cases hji : j = i
  · subst hji
    rw [Function.update_self] at hj
    rw [← Option.some.inj hj, Function.update_self]
  · rw [Function.update_of_ne hji] at hj
    exact h.pretend ho p j hj

theorem revoke (h : Backed table claim) (ho : claim o = some i) :
    Backed (Function.update table i none) (Function.update claim o none) := by
  intro p j hj
  by_cases hji : j = i
  · subst hji
    rw [Function.update_self] at hj
    cases hj
  · rw [Function.update_of_ne hji] at hj
    have hp : p ≠ o := by
      intro e
      subst e
      exact hji (Option.some.inj ((h p j hj).symm.trans ho))
    rw [Function.update_of_ne hp]
    exact h p j hj

end Backed

/-! ## what is believed is so -/

namespace Held

/-- no two objects hold one id -/
theorem unique (h : Held table claim) (ho : claim o = some i) (ho' : claim o' = some i) : o = o' :=
  Option.some.inj ((h o i ho).symm.trans (h o' i ho'))

/-- an id that nobody holds is claimed by nobody -/
theorem vacant (h : Held table claim) (hi : table i = none) : claim o ≠ some i := by
  intro ho
  rw [h o i ho] at hi
  cases hi

variable [DecidableEq I]

/-- the server has leased a free id to an object that does not know -/
theorem occupy (h : Held table claim) (hi : table i = none) : Held (Function.update table i (some o)) claim := by
  intro p j hp
  have hj : j ≠ i := fun e => h.vacant hi (e ▸ hp)
  rw [Function.update_of_ne hj]
  exact h p j hp

variable [DecidableEq O]

theorem grant (h : Held table claim) (hi : table i = none) :
    Held (Function.update table i (some o)) (Function.update claim o (some i)) := by
  intro p j hj
  by_cases hp : p = o
  · subst hp
    rw [Function.update_self] at hj
    rw [← Option.some.inj hj, Function.update_self]
  · rw [Function.update_of_ne hp] at hj
    exact h.occupy hi p j hj

theorem revoke (h : Held table claim) (ho : claim o = some i) :
    Held (Function.update table i none) (Function.update claim o none) := by
  intro p j hj
  by_cases hp : p = o
  · subst hp
    rw [Function.update_self] at hj
    cases hj
  · rw [Function.update_of_ne hp] at hj
    have hji : j ≠ i := fun e => hp (h.unique hj (e ▸ ho))
    rw [Function.update_of_ne hji]
    exact h p j hj

end Held

/-! ## objects in a list

Objects are numbered in the order in which they are created; one believes to hold its id while a
flag of it is set. -/

section
variable {X : Type} (id : X → I) (flag : X → Bool)

def claims (objs : List X) (o : Nat) : Option I :=
  (objs[o]?).bind fun x => if flag x then some (id x) else none

variable {id flag} {objs : List X} {x : X}

theorem claims_eq {o : Nat} {i : I} :
    claims id flag objs o = some i ↔ ∃ x, objs[o]? = some x ∧ flag x = true ∧ id x = i := by
  simp [claims, Option.bind_eq_some_iff]

theorem claims_new : claims id flag objs objs.length = none := by
  rw [claims, List.getElem?_eq_none (Nat.le_refl _)]
  rfl

theorem claims_push (hx : flag x = true) :
    claims id flag (objs ++ [x]) = Function.update (claims id flag objs) objs.length (some (id x)) := by
  funext o
  by_cases ho : o = objs.length
  · subst ho
    rw [Function.update_self, claims, List.getElem?_concat_length]
    show (if flag x = true then some (id x) else none) = _
    rw [if_pos hx]
  · rw [Function.update_of_ne ho]
    unfold claims
    by_cases hl : o < objs.length
    · rw [List.getElem?_append_left hl]
    · rw [List.getElem?_eq_none (by simp; omega), List.getElem?_eq_none (by omega)]

theorem claims_push_off (hx : flag x = false) : claims id flag (objs ++ [x]) = claims id flag objs := by
  funext o
  unfold claims
  by_cases hl : o < objs.length
  · rw [List.getElem?_append_left hl]
  · by_cases ho : o = objs.length
    · subst ho
      rw [List.getElem?_concat_length, List.getElem?_eq_none (Nat.le_refl _)]
      show (if flag x = true then some (id x) else none) = none
      rw [hx]
      rfl
    · rw [List.getElem?_eq_none (by simp; omega), List.getElem?_eq_none (by omega)]

/-- an object whose flag is taken down -/
theorem claims_reset {g : X → X} (hg : ∀ x, flag (g x) = false) (o : Nat) :
    claims id flag (objs.modify o g) = Function.update (claims id flag objs) o none := by
  funext p
  unfold claims
  rw [List.getElem?_modify]
  by_cases hp : p = o
  · subst hp
    rw [Function.update_self]
    cases objs[p]? with
    | none => rfl
    | some x =>
      show (if flag (if p = p then g x else x) = true then _ else _) = _
      rw [if_pos rfl, hg x]
      rfl
  · rw [Function.update_of_ne hp]
    cases objs[p]? with
    | none => rfl
    | some x =>
      show (if flag (if o = p then g x else x) = true then some (id (if o = p then g x else x)) else none) = _
      rw [if_neg (Ne.symm hp)]
      rfl

end
end
end Pharoah
