import Pharoah.Future.Alive

/-!
# Futures: a lost owner does not come back

`Keeps` asks for no more than it must: a step that lets go of the last reference to a future that
is still needed leaves running or queued code behind whose functions read a future without owner,
whenever they are called.

* `Back s s'`       what `s'` owns beyond `s` are futures created in between;
* `act_back`        every action goes `Back`;
* `lost_for_good`   **a step without `Keeps` leaves a function behind whose future has no owner
                    in any later state**.
-/

namespace Pharoah
namespace Future

open Lts

section
variable {V : Type}

/-- `r` is the future created between `s` and `s'`. -/
def Created (s s' : Program V) (r : Ref) : Prop := r = s.heap.length ∧ r < s'.heap.length

/-- Later owners of a future created before come from earlier ones. -/
structure Back (s s' : Program V) : Prop where
  length : s.heap.length ≤ s'.heap.length
  handles : ∀ r ∈ s'.handles, r ∈ s.handles ∨ Created s s' r
  owns : ∀ p q, owns s'.heap p q → owns s.heap p q ∨ Created s s' q
  wired : Wired s'.heap

section
variable {s s' : Program V}

theorem Back.owned (hb : Back s s') {r : Ref} (hr : s'.Owned r) : s.Owned r ∨ Created s s' r := by
  refine hr.back hb.handles hb.owns fun p q hp ho => ?_
  obtain ⟨F, hF, -⟩ := ho
  have hlt : p < s.heap.length := (List.getElem?_eq_some_iff.mp hF).1
  exact absurd hp.1 (Nat.ne_of_lt hlt)

/-- the links of the heap stay -/
theorem Back.of_same (hs : SameLinks s'.heap s.heap) (hw : Wired s.heap)
    (hh : ∀ r ∈ s'.handles, r ∈ s.handles) : Back s s' := by
  refine ⟨?_, fun r hr => Or.inl (hh r hr), fun p q hpq => Or.inl (hs.owns ▸ hpq), hs.symm.wired hw⟩
  have hl : (s'.heap.map Object.links).length = (s.heap.map Object.links).length :=
    congrArg List.length hs
  rw [List.length_map, List.length_map] at hl
  exact Nat.le_of_eq hl.symm

theorem mem_create {r : Ref} {h : Heap V} (hl : h.length = s.heap.length + 1)
    (hr : r ∈ (s.create h).handles) : r ∈ s.handles ∨ Created s (s.create h) r := by
  obtain rfl | hr := List.mem_cons.mp hr
  · have hlt : s.heap.length < h.length := by omega
    exact Or.inr ⟨rfl, hlt⟩
  · exact Or.inl hr

/-- a new future owns nothing -/
theorem owns_push {h : Heap V} {k : Kind V} {vs : List V} {p q : Ref}
    (hpq : owns (h ++ [{ kind := k, value := vs }]) p q) : owns h p q := by
  obtain ⟨F, hF, hq⟩ := hpq
  obtain hF | ⟨-, rfl⟩ := getElem?_push.mp hF
  · exact ⟨F, hF, hq⟩
  · obtain hq | hq := hq <;> cases hq

theorem Back.push (hw : Wired s.heap) (k : Kind V) (vs : List V) :
    Back s (s.create (s.heap ++ [{ kind := k, value := vs }])) := by
  have hl : (s.heap ++ [({ kind := k, value := vs } : Object V)]).length = s.heap.length + 1 := by simp
  refine ⟨?_, fun r hr => mem_create hl hr, fun p q hpq => Or.inl (owns_push hpq),
    hw.push (Object.wired_new k vs)⟩
  show s.heap.length ≤ (s.heap ++ [_]).length
  omega

theorem owns_modify {h : Heap V} {f p q : Ref} {g : Object V → Object V}
    (hpq : owns (h.modify f g) p q) : owns h p q ∨
      ∃ F, (g F).nxt = some q ∧ F.nxt ≠ some q ∨ (g F).nxtF = some q ∧ F.nxtF ≠ some q := by
  obtain ⟨G, hG, hq⟩ := hpq
  rw [List.getElem?_modify, Option.map_eq_map, Option.map_eq_some_iff] at hG
  obtain ⟨F, hF, rfl⟩ := hG
  split at hq
  · by_cases h1 : F.nxt = some q ∨ F.nxtF = some q
    · exact Or.inl ⟨F, hF, h1⟩
    · exact Or.inr ⟨F, hq.imp (fun h => ⟨h, fun e => h1 (Or.inl e)⟩) fun h => ⟨h, fun e => h1 (Or.inr e)⟩⟩
  · exact Or.inl ⟨F, hF, hq⟩

theorem owns_then_ {h : Heap V} {f p q : Ref} {b : Body V} (hpq : owns (then_ h f b) p q) :
    owns h p q ∨ q = h.length := by
  obtain ho | ⟨F, ⟨hq, -⟩ | ⟨hq, hne⟩⟩ := owns_modify (owns_push hpq)
  · exact Or.inl ho
  · exact Or.inr (Option.some.inj hq).symm
  · exact absurd hq hne

theorem owns_except {h : Heap V} {f p q : Ref} (hpq : owns (except h f) p q) :
    owns h p q ∨ q = h.length := by
  obtain ho | ⟨F, ⟨hq, hne⟩ | ⟨hq, -⟩⟩ := owns_modify (owns_push hpq)
  · exact Or.inl ho
  · exact absurd hq hne
  · exact Or.inr (Option.some.inj hq).symm

variable [Movable V]

theorem act_back (hw : Wired s.heap) {a : Act V} {ds : List Ref} (ha : act s a = some (ds, s')) :
    Back s s' := by
  have all : ∀ f, Pharoah.Owned (fun _ => True) (owns s.heap) f := fun f => Owned.root trivial
  have same : ∀ {t : Program V}, t.heap = s.heap → (∀ r ∈ t.handles, r ∈ s.handles) → Back s t :=
    fun ht hh => Back.of_same (show SameLinks _ _ from congrArg _ ht) hw hh
  cases act_cases ha with
  | bound vs => exact Back.push hw _ _
  | unbound => exact Back.push hw _ []
  | then_ f b hf =>
    have hl := length_then_ s.heap f b
    have hlt : s.heap.length < (then_ s.heap f b).length := by omega
    refine ⟨Nat.le_of_lt hlt, fun r hr => mem_create hl hr, fun p q hpq => ?_, hw.then_ f b⟩
    exact (owns_then_ hpq).imp id fun hq => ⟨hq, hq ▸ hlt⟩
  | except f hf =>
    have hl := length_except s.heap f
    have hlt : s.heap.length < (except s.heap f).length := by omega
    refine ⟨Nat.le_of_lt hlt, fun r hr => Or.inl hr, fun p q hpq => ?_, hw.except f⟩
    exact (owns_except hpq).imp id fun hq => ⟨hq, hq ▸ hlt⟩
  | copy f hf =>
    refine same rfl fun r hr => ?_
    obtain rfl | hr := List.mem_cons.mp hr
    · exact hf
    · exact hr
  | drop f hf => exact same rfl fun r hr => List.mem_of_mem_erase hr
  | run f args hf => exact Back.of_same (runTo_ok hw _ (all f) args).links hw fun r hr => hr
  | accept f vs hfn => exact Back.of_same (acceptfunTo_ok hw _ (all f) vs).links hw fun r hr => hr
  | reject fn es hfn =>
    exact Back.of_same (rejectfunTo_ok hw _ (all fn.this) es).links hw fun r hr => hr
  | body f args vs b rest hst hb =>
    exact Back.of_same (runEnd_ok hw _ b hb (fun r _ => all r) vs).links hw fun r hr => hr
  | _ => exact same rfl fun r hr => hr

theorem step_back (hw : Wired s.heap) {a : Act V} (hs : step s a = some s') : Back s s' := by
  obtain ⟨⟨ds, t⟩, ha, rfl⟩ := Option.map_eq_some_iff.mp hs
  exact act_back hw ha

/-- a future that has lost its last owner gets no new one -/
theorem unowned_stays {r : Ref} (hw : Wired s.heap) (hr : r < s.heap.length) (hn : ¬ s.Owned r)
    {as : List (Act V)} (ht : Lts.exec step s as = some s') : ¬ s'.Owned r := by
  refine (Lts.invariant (I := fun t => Wired t.heap ∧ r < t.heap.length ∧ ¬ t.Owned r) ?_
    ⟨hw, hr, hn⟩ ht).2.2
  intro t a t' ⟨htw, htr, htn⟩ hs
  have hb := step_back htw hs
  refine ⟨hb.wired, Nat.lt_of_lt_of_le htr hb.length, fun ho => ?_⟩
  obtain ho | he := hb.owned ho
  · exact htn ho
  · exact absurd he.1 (Nat.ne_of_lt htr)

/-- an owned future is in the heap -/
theorem owned_lt {as : List (Act V)} (ht : Lts.exec step {} as = some s) {r : Ref} (hr : s.Owned r) :
    r < s.heap.length := by
  have hI := Lts.invariant (I := fun t : Program V => Wired t.heap ∧ ∀ q, t.Owned q → q < t.heap.length)
    ?_ ⟨Guarded.init.wired, fun q hq => ?_⟩ ht
  · exact hI.2 r hr
  · intro t a t' ⟨htw, htl⟩ hs
    have hb := step_back htw hs
    refine ⟨hb.wired, fun q hq => ?_⟩
    obtain hq | hq := hb.owned hq
    · exact Nat.lt_of_lt_of_le (htl q hq) hb.length
    · exact hq.2
  · refine (hq.closed (P := fun _ => False) (fun q hq => ?_) fun _ _ hp _ => hp).elim
    cases hq

end

/-! ## what a step without `Keeps` does -/

section
variable {s s' : Program V}

/-- running and queued code needs in a later heap what it needed before -/
theorem needs_grown {h : Heap V} {hs : List Ref} (hk : KeepsKinds s.heap h) {r : Ref}
    (hr : r ∈ s.needs) (hlt : r < s.heap.length) :
    r ∈ ({ s with heap := h, handles := hs } : Program V).needs := by
  obtain ⟨t, ht, htr⟩ | ⟨c, hc, hcr⟩ := Program.mem_needs.mp hr
  · exact Program.mem_needs.mpr (Or.inl ⟨t, ht, htr⟩)
  · refine Program.mem_needs.mpr (Or.inr ⟨c, hc, ?_⟩)
    cases c with
    | task fn => exact hcr
    | call e =>
      cases e with
      | handler x args => exact hcr
      | body f args =>
        have hf : r = f := bodyNeeds_eq hcr
        subst hf
        have hkind : (s.heap[r]?).map Object.kind = some (s.heap[r].kind) := by
          rw [List.getElem?_eq_getElem hlt]
          rfl
        show bodyNeeds h r = some r
        unfold bodyNeeds
        rw [hk r _ hkind, ← hkind]
        exact hcr

/-- the references after `then`, but for the one to the new future -/
theorem owns_then_kept {h : Heap V} {f p q : Ref} {b : Body V} (hpq : owns (then_ h f b) p q) :
    ownsButNxt h f p q ∨ q = h.length := by
  obtain ⟨F, hF, hq⟩ := owns_push hpq
  rw [List.getElem?_modify, Option.map_eq_map, Option.map_eq_some_iff] at hF
  obtain ⟨G, hG, rfl⟩ := hF
  by_cases hf : f = p
  · rw [if_pos hf] at hq
    obtain hq | hq := hq
    · exact Or.inr (Option.some.inj hq).symm
    · exact Or.inl ⟨G, hG, Or.inr hq⟩
  · rw [if_neg hf] at hq
    exact Or.inl ⟨G, hG, hq.imp (fun h => ⟨Ne.symm hf, h⟩) id⟩

theorem owns_except_kept {h : Heap V} {f p q : Ref} (hpq : owns (except h f) p q) :
    ownsButNxtF h f p q ∨ q = h.length := by
  obtain ⟨F, hF, hq⟩ := owns_push hpq
  rw [List.getElem?_modify, Option.map_eq_map, Option.map_eq_some_iff] at hF
  obtain ⟨G, hG, rfl⟩ := hF
  by_cases hf : f = p
  · rw [if_pos hf] at hq
    obtain hq | hq := hq
    · exact Or.inl ⟨G, hG, Or.inl hq⟩
    · exact Or.inr (Option.some.inj hq).symm
  · rw [if_neg hf] at hq
    exact Or.inl ⟨G, hG, hq.imp id fun h => ⟨Ne.symm hf, h⟩⟩

variable [Movable V]

/-- A step without `Keeps` takes the last owner of a future that running or queued code needs. -/
theorem lost_step {as : List (Act V)} (ht : Lts.exec step {} as = some s)
    (ho : ∀ r ∈ s.needs, s.Owned r) {a : Act V} (hn : ¬ Keeps s a) (hs : step s a = some s') :
    ∃ r ∈ s'.needs, r < s'.heap.length ∧ ¬ s'.Owned r := by
  have hlt : ∀ r ∈ s.needs, r < s.heap.length := fun r hr => owned_lt ht (ho r hr)
  have hnew : ∀ (F : Object V), s.heap[s.heap.length]? ≠ some F := fun F hF => by
    rw [List.getElem?_eq_none (Nat.le_refl _)] at hF
    cases hF
  obtain ⟨⟨ds, t⟩, ha, rfl⟩ := Option.map_eq_some_iff.mp hs
  have pick : ∀ {P : Ref → Prop}, ¬ (∀ r ∈ s.needs, P r) → ∃ r ∈ s.needs, ¬ P r := fun h => by
    simpa using h
  cases act_cases ha with
  | drop f hf =>
    obtain ⟨r, hr, hor⟩ := pick hn
    exact ⟨r, hr, hlt r hr, hor⟩
  | then_ f b hf =>
    obtain ⟨r, hr, hor⟩ := pick hn
    have hl := length_then_ s.heap f b
    have hrl : r < s.heap.length := hlt r hr
    refine ⟨r, needs_grown (keepsKinds_then_ s.heap f b) hr hrl, ?_, fun ho' => hor ?_⟩
    · show r < (then_ s.heap f b).length
      exact hl ▸ Nat.lt_succ_of_lt hrl
    · obtain ho | he := ho'.back (N := fun q => q = s.heap.length)
        (fun q hq => (List.mem_cons.mp hq).symm) (fun p q => owns_then_kept)
        (fun p q hp ⟨F, hF, _⟩ => hnew F (hp ▸ hF))
      · exact ho
      · exact absurd he (Nat.ne_of_lt hrl)
  | except f hf =>
    obtain ⟨r, hr, hor⟩ := pick hn
    have hl := length_except s.heap f
    have hrl : r < s.heap.length := hlt r hr
    refine ⟨r, needs_grown (keepsKinds_except s.heap f) hr hrl, ?_, fun ho' => hor ?_⟩
    · show r < (except s.heap f).length
      exact hl ▸ Nat.lt_succ_of_lt hrl
    · obtain ho | he := ho'.back (N := fun q => q = s.heap.length)
        (fun q hq => Or.inl hq) (fun p q => owns_except_kept)
        (fun p q hp ⟨F, hF, _⟩ => hnew F (hp ▸ hF))
      · exact ho
      · exact absurd he (Nat.ne_of_lt hrl)
  | _ => exact absurd trivial hn

/-- **The first step without `Keeps` leaves a function behind, in running or queued code, whose
future has no owner in any later state.** -/
theorem lost_for_good {as : List (Act V)} (hk : Along step Keeps {} as)
    (ht : Lts.exec step {} as = some s) {a : Act V} (hn : ¬ Keeps s a) (hs : step s a = some s') :
    ∃ r ∈ s'.needs, ∀ bs t, Lts.exec step s' bs = some t → ¬ t.Owned r := by
  have hg : Guarded s := hk.invariant (fun _ _ _ hg hk hs => hg.step hk hs) Guarded.init ht
  obtain ⟨r, hr, hrl, hno⟩ := lost_step ht hg.owned hn hs
  exact ⟨r, hr, fun bs t hbs => unowned_stays (step_back hg.wired hs).wired hrl hno hbs⟩

end
end
end Future
end Pharoah
