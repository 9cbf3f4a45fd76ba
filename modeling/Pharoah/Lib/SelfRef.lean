import Mathlib.Data.List.Basic

/-!
# Objects that own themselves

Objects are numbered in the order in which they are made, and `handles` has a number once for each
handle outside.  An object may own itself, too (`self`); its memory is released once no handle and
no such reference is left.

* `Kept`        the memory of an object has not been released;
* `kept_push`, `kept_push_handle`, `kept_reset`, `kept_copy`, `kept_drop`   what the operations do
                to it;
* `member_push`, `member_modify`   and what they do to a member of an object.
-/

namespace Pharoah

section
variable {α β : Type} {self : α → Bool} {handles : List Nat} {objs : List α}

/-- Somebody outside has a handle of `t`, or `t` owns itself. -/
def Kept (self : α → Bool) (handles : List Nat) (objs : List α) (t : Nat) : Prop :=
  t ∈ handles ∨ ∃ x, objs[t]? = some x ∧ self x = true

/-! ## making an object -/

/-- an object that has been made is the last, or was there before -/
theorem getElem?_push {x y : α} {t : Nat} :
    (objs ++ [x])[t]? = some y ↔ objs[t]? = some y ∨ t = objs.length ∧ x = y := by
  constructor
  · intro h
    obtain hlt | hge := Nat.lt_or_ge t objs.length
    · rw [List.getElem?_append_left hlt] at h
      exact Or.inl h
    · rw [List.getElem?_append_right hge] at h
      have hlt := (List.getElem?_eq_some_iff.mp h).1
      rw [List.length_singleton] at hlt
      have he : t = objs.length := by omega
      subst he
      rw [Nat.sub_self] at h
      exact Or.inr ⟨rfl, Option.some.inj h⟩
  · intro h
    obtain h | ⟨rfl, rfl⟩ := h
    · rw [List.getElem?_append_left (List.getElem?_eq_some_iff.mp h).1]
      exact h
    · exact List.getElem?_concat_length

/-- one that nobody owns is released at once -/
theorem kept_push {x : α} (hx : self x = false) {t : Nat} :
    Kept self handles (objs ++ [x]) t ↔ Kept self handles objs t := by
  refine or_congr Iff.rfl ⟨fun h => ?_, fun h => ?_⟩
  · obtain ⟨y, hy, hself⟩ := h
    obtain hy | ⟨-, rfl⟩ := getElem?_push.mp hy
    · exact ⟨y, hy, hself⟩
    · rw [hx] at hself
      cases hself
  · obtain ⟨y, hy, hself⟩ := h
    exact ⟨y, getElem?_push.mpr (Or.inl hy), hself⟩

/-- and one that is handed out is not -/
theorem kept_push_handle {x : α} {t : Nat} :
    Kept self (objs.length :: handles) (objs ++ [x]) t ↔ Kept self handles objs t ∨ t = objs.length := by
  constructor
  · intro h
    obtain h | ⟨y, hy, hself⟩ := h
    · obtain h | h := List.mem_cons.mp h
      · exact Or.inr h
      · exact Or.inl (Or.inl h)
    · obtain hy | ⟨ht, -⟩ := getElem?_push.mp hy
      · exact Or.inl (Or.inr ⟨y, hy, hself⟩)
      · exact Or.inr ht
  · intro h
    obtain h | rfl := h
    · obtain h | ⟨y, hy, hself⟩ := h
      · exact Or.inl (List.mem_cons_of_mem _ h)
      · exact Or.inr ⟨y, getElem?_push.mpr (Or.inl hy), hself⟩
    · exact Or.inl (List.mem_cons_self ..)

/-! ## letting go -/

theorem kept_reset_ne {t u : Nat} (htu : t ≠ u) (off : α → α) :
    Kept self handles (objs.modify t off) u ↔ Kept self handles objs u := by
  unfold Kept
  rw [List.getElem?_modify_ne off objs htu]

/-- An object that a handle is left of may stop to own itself. -/
theorem kept_reset {t : Nat} (ht : t ∈ handles) (off : α → α) {u : Nat} :
    Kept self handles (objs.modify t off) u ↔ Kept self handles objs u := by
  by_cases htu : t = u
  · subst htu
    exact ⟨fun _ => Or.inl ht, fun _ => Or.inl ht⟩
  · exact kept_reset_ne htu off

/-- what is kept after an object has stopped to own itself -/
theorem kept_of_reset {off : α → α} (hoff : ∀ x, self (off x) = false) {t u : Nat}
    (h : Kept self handles (objs.modify t off) u) : Kept self handles objs u := by
  by_cases htu : t = u
  · subst htu
    obtain h | ⟨y, hy, hself⟩ := h
    · exact Or.inl h
    · rw [List.getElem?_modify_eq] at hy
      obtain ⟨x, -, rfl⟩ := Option.map_eq_some_iff.mp hy
      rw [hoff x] at hself
      cases hself
  · exact (kept_reset_ne htu off).mp h

theorem kept_copy {t : Nat} (ht : t ∈ handles) {u : Nat} :
    Kept self (t :: handles) objs u ↔ Kept self handles objs u := by
  refine or_congr ⟨fun h => ?_, List.mem_cons_of_mem t⟩ Iff.rfl
  obtain rfl | h := List.mem_cons.mp h
  · exact ht
  · exact h

/-- Only the object whose handle is dropped can be released, when that was the last one. -/
theorem kept_drop {t u : Nat} :
    Kept self (handles.erase t) objs u ↔
      Kept self handles objs u ∧ ¬ (u = t ∧ ¬ Kept self (handles.erase t) objs t) := by
  constructor
  · intro h
    refine ⟨h.imp List.mem_of_mem_erase id, fun hno => ?_⟩
    obtain ⟨rfl, hno⟩ := hno
    exact hno h
  · intro h
    obtain ⟨h, hno⟩ := h
    by_cases hu : u = t
    · subst hu
      exact not_not.mp fun hk => hno ⟨rfl, hk⟩
    · exact h.imp (List.mem_erase_of_ne hu).mpr id

/-! ## members -/

theorem member_push {member : α → β} {x : α} {t : Nat} {b : β} :
    ((objs ++ [x])[t]?).map member = some b ↔
      (objs[t]?).map member = some b ∨ t = objs.length ∧ member x = b := by
  constructor
  · intro h
    obtain ⟨y, hy, rfl⟩ := Option.map_eq_some_iff.mp h
    obtain hy | ⟨ht, rfl⟩ := getElem?_push.mp hy
    · exact Or.inl (Option.map_eq_some_iff.mpr ⟨y, hy, rfl⟩)
    · exact Or.inr ⟨ht, rfl⟩
  · intro h
    obtain h | ⟨ht, hb⟩ := h
    · obtain ⟨y, hy, hb⟩ := Option.map_eq_some_iff.mp h
      exact Option.map_eq_some_iff.mpr ⟨y, getElem?_push.mpr (Or.inl hy), hb⟩
    · exact Option.map_eq_some_iff.mpr ⟨x, getElem?_push.mpr (Or.inr ⟨ht, rfl⟩), hb⟩

theorem member_modify {member : α → β} {off : α → α} (hoff : ∀ x, member (off x) = member x) (t u : Nat) :
    ((objs.modify t off)[u]?).map member = (objs[u]?).map member := by
  rw [List.getElem?_modify]
  split
  · rw [Option.map_eq_map, Option.map_map]
    exact congrFun (congrArg Option.map (funext hoff)) _
  · rw [Option.map_eq_map, Option.map_id_fun', id]

end
end Pharoah
