import Pharoah.Future.Names

/-!
# Futures: what the calls of a construction determine

Everything about a construction but the places is read off its calls, one future at a time.

* `kindAt`, `valueAt`    what was created under a name, and the values it was bound to;
* `nameAt past r`        the name in a place;
* `nextAt past f`        the continuation of `f`.

`Made.stocked`: the objects in the heap are those that the calls create.  `Made.continues`: **a chain
is its head and what follows it**, so that constructions with the same continuations have the same
chains (`Made.same_chain`).
-/

namespace Pharoah
namespace Future

section
variable {V : Type}

/-! ## the objects of a construction -/

def Call.values : Call V → List V
  | .bound _ vs => vs
  | _ => []

/-- the values that the future named `n` was bound to -/
def valueAt (past : List (Call V)) (n : Name) : List V :=
  ((past.find? fun c => c.name = n).map Call.values).getD []

theorem valueAt_self (c : Call V) (past : List (Call V)) : valueAt (c :: past) c.name = c.values := by
  unfold valueAt
  rw [List.find?_cons_of_pos (by simp)]
  rfl

theorem valueAt_old {c : Call V} (past : List (Call V)) {n : Name} (hn : c.name ≠ n) :
    valueAt (c :: past) n = valueAt past n := by
  unfold valueAt
  rw [List.find?_cons_of_neg (by simpa using hn)]

theorem get_make_new (c : Call V) (past : List (Call V)) : ∃ F,
    (build (c :: past))[past.length]? = some F ∧ F.kind = c.kind ∧ F.value = c.values := by
  have hlast : ∀ (h : Heap V), h.length = past.length → ∀ F, (h ++ [F])[past.length]? = some F :=
    fun h hl F => by rw [← hl]; exact get_new h F
  cases c with
  | bound n vs => exact ⟨_, hlast (build past) (length_build past) _, rfl, rfl⟩
  | unbound n => exact ⟨_, hlast (build past) (length_build past) _, rfl, rfl⟩
  | then_ f b n => exact ⟨_, hlast _ (by simp) _, rfl, rfl⟩
  | except f x => exact ⟨_, hlast _ (by simp) _, rfl, rfl⟩

/-- a later call does not change the kind and the value of a future -/
theorem get_make_kept (c : Call V) {past : List (Call V)} {r : Ref} {F : Object V}
    (hF : (build past)[r]? = some F) :
    ∃ G, (build (c :: past))[r]? = some G ∧ G.kind = F.kind ∧ G.value = F.value := by
  have hlt : r < past.length := by
    rw [← length_build past]
    exact (List.getElem?_eq_some_iff.mp hF).1
  by_cases hon : ∀ f ∈ c.on, place past f ≠ r
  · exact ⟨F, (get_make_old hlt hon).trans hF, rfl, rfl⟩
  · simp only [not_forall, not_not] at hon
    obtain ⟨f, hf, rfl⟩ := hon
    cases c with
    | bound n vs => cases hf
    | unbound n => cases hf
    | then_ g b n => cases hf; exact ⟨_, get_then_self b hF, rfl, rfl⟩
    | except g x => cases hf; exact ⟨_, get_except_self hF, rfl, rfl⟩

/-- the objects of the heap are those that the calls create -/
def Stocked (past : List (Call V)) : Prop :=
  ∀ n ∈ past.map Call.name, ∃ F, (build past)[place past n]? = some F ∧
    kindAt past n = some F.kind ∧ F.value = valueAt past n

theorem Stocked.cons {c : Call V} {past : List (Call V)} (h : Stocked past)
    (hc : c.name ∉ past.map Call.name) : Stocked (c :: past) := by
  intro n hn
  by_cases hnew : c.name = n
  · subst hnew
    obtain ⟨F, hF, hk, hv⟩ := get_make_new c past
    rw [place_self, kindAt_self, valueAt_self]
    exact ⟨F, hF, congrArg some hk.symm, hv⟩
  · have hold : n ∈ past.map Call.name := (List.mem_cons.mp hn).resolve_left (Ne.symm hnew)
    obtain ⟨F, hF, hk, hv⟩ := h n hold
    obtain ⟨G, hG, hk', hv'⟩ := get_make_kept c hF
    rw [place_old hc hold, kindAt_old past hnew, valueAt_old past hnew]
    exact ⟨G, hG, hk.trans (congrArg some hk'.symm), hv'.trans hv⟩

theorem Made.stocked {past : List (Call V)} {cs : List (List Name)} (hm : Made past cs) :
    Stocked past := by
  induction hm with
  | empty => exact fun n hn => absurd hn (by simp)
  | bound vs _ hn ih => exact ih.cons hn
  | unbound _ hn ih => exact ih.cons hn
  | then_ b _ hn ih => exact ih.cons hn
  | except _ _ hx ih => exact ih.cons hx

/-- the name of the future, or of the handler, in a place -/
def nameAt (past : List (Call V)) (r : Ref) : Name := ((past.map Call.name).reverse[r]?).getD 0

theorem nameAt_place {past : List (Call V)} {n : Name} (hn : n ∈ past.map Call.name) :
    nameAt past (place past n) = n := by
  induction past with
  | nil => exact absurd hn (by simp)
  | cons c past ih =>
    have hlen : (past.map Call.name).reverse.length = past.length := by simp
    unfold nameAt place
    rw [List.map_cons, List.reverse_cons]
    split
    · next h =>
      rw [List.getElem?_append_right (by omega), hlen, Nat.sub_self]
      exact h
    · next h =>
      have hold : n ∈ past.map Call.name := (List.mem_cons.mp hn).resolve_left (Ne.symm h)
      have hlt : place past n < (past.map Call.name).reverse.length := hlen ▸ place_lt hold
      rw [List.getElem?_append_left hlt]
      exact ih hold

/-! ## the chains, read off the calls -/

/-- the continuation of `f` -/
def nextAt (past : List (Call V)) (f : Name) : Option Name :=
  past.findSome? fun
    | .then_ g _ n => if g = f then some n else none
    | _ => none

theorem nextAt_other {c : Call V} (past : List (Call V)) {f : Name} (hon : c.on ≠ some f) :
    nextAt (c :: past) f = nextAt past f := by
  unfold nextAt
  rw [List.findSome?_cons]
  cases c with
  | then_ g b n =>
    have hne : g ≠ f := fun e => hon (by rw [e]; rfl)
    simp [hne]
  | bound n vs => rfl
  | unbound n => rfl
  | except g x => rfl

theorem nextAt_fresh {past : List (Call V)} {cs : List (List Name)} (hm : Made past cs) {n : Name}
    (hn : n ∉ past.map Call.name) : nextAt past n = none := by
  refine List.findSome?_eq_none_iff.mpr fun c hc => ?_
  have hon : c.on ≠ some n := fun e => hn (hm.on_mem c hc n e)
  cases c with
  | then_ g b m =>
    have hne : g ≠ n := fun e => hon (by rw [e]; rfl)
    simp [hne]
  | bound m vs => rfl
  | unbound m => rfl
  | except g x => rfl

/-- each future of the chain is continued with the one after it -/
def Continues (next : Name → Option Name) : List Name → Prop
  | [] => True
  | f :: rest => next f = rest.head? ∧ Continues next rest

theorem Continues.congr {next next' : Name → Option Name} {c : List Name} (h : Continues next c)
    (hc : ∀ f ∈ c, next' f = next f) : Continues next' c := by
  induction c with
  | nil => trivial
  | cons f rest ih =>
    refine ⟨(hc f (List.mem_cons_self ..)).trans h.1, ih h.2 ?_⟩
    exact fun g hg => hc g (List.mem_cons_of_mem _ hg)

theorem Continues.snoc {next next' : Name → Option Name} {c : List Name} {f n : Name}
    (h : Continues next (c ++ [f])) (hc : ∀ g ∈ c, next' g = next g) (hf : next' f = some n)
    (hn : next' n = none) : Continues next' (c ++ [f, n]) := by
  induction c with
  | nil => exact ⟨hf, hn, trivial⟩
  | cons g c ih =>
    have h1 : (c ++ [f, n]).head? = (c ++ [f]).head? := by cases c <;> rfl
    refine ⟨?_, ih h.2 (fun g' hg' => hc g' (List.mem_cons_of_mem _ hg'))⟩
    exact (hc g (List.mem_cons_self ..)).trans (h.1.trans h1.symm)

/-- a chain is determined by its head -/
theorem Continues.unique {next : Name → Option Name} {f : Name} {ns ns' : List Name}
    (h : Continues next (f :: ns)) (h' : Continues next (f :: ns')) : ns = ns' := by
  induction ns generalizing f ns' with
  | nil =>
    have h1 := h'.1.symm.trans h.1
    cases ns' with
    | nil => rfl
    | cons m ns' => cases h1
  | cons n ns ih =>
    have h1 := h'.1.symm.trans h.1
    cases ns' with
    | nil => cases h1
    | cons m ns' =>
      obtain rfl : m = n := Option.some.inj h1
      rw [ih h.2 h'.2]

theorem Made.nodup {past : List (Call V)} {cs : List (List Name)} (hm : Made past cs) :
    cs.flatten.Nodup := by
  have h1 := hm.built.wf.nodup
  rw [placed, ← List.map_flatten] at h1
  exact h1.of_map _

theorem Made.continues {past : List (Call V)} {cs : List (List Name)} (hm : Made past cs) :
    ∀ c ∈ cs, Continues (nextAt past) c := by
  induction hm with
  | empty => simp
  | @bound past cs n vs hm hn ih =>
    have hold : ∀ f, nextAt (.bound n vs :: past) f = nextAt past f := fun f =>
      nextAt_other past (by simp [Call.on])
    intro c hc
    rcases List.mem_cons.mp hc with rfl | hc
    · exact ⟨(hold n).trans (nextAt_fresh hm hn), trivial⟩
    · exact (ih c hc).congr fun f _ => hold f
  | @unbound past cs n hm hn ih =>
    have hold : ∀ f, nextAt (.unbound n :: past) f = nextAt past f := fun f =>
      nextAt_other past (by simp [Call.on])
    intro c hc
    rcases List.mem_cons.mp hc with rfl | hc
    · exact ⟨(hold n).trans (nextAt_fresh hm hn), trivial⟩
    · exact (ih c hc).congr fun f _ => hold f
  | except hm _ _ ih => exact fun c hc => (ih c hc).congr fun _ _ => rfl
  | @then_ past cs ds c f n b hm hn ih =>
    have hnd := hm.nodup
    rw [List.flatten_append, List.flatten_cons, List.nodup_append, List.nodup_append] at hnd
    obtain ⟨-, ⟨hcf, -, hfd⟩, hfc⟩ := hnd
    have hfn : f ≠ n := fun e => hn (e ▸ hm.mem f (by simp))
    have hold : ∀ g, f ≠ g → nextAt (.then_ f b n :: past) g = nextAt past g := fun g hne =>
      nextAt_other past (by simpa [Call.on] using hne)
    intro d hd
    rcases List.mem_append.mp hd with hd | hd
    · refine (ih d (List.mem_append_left _ hd)).congr fun g hg => hold g fun e => ?_
      exact hfc g (List.mem_flatten.mpr ⟨d, hd, hg⟩) f (by simp) e.symm
    · rcases List.mem_cons.mp hd with rfl | hd
      · refine (ih _ (by simp)).snoc (fun g hg => hold g fun e => ?_) ?_ ?_
        · exact (List.nodup_append.mp hcf).2.2 g hg f (List.mem_singleton_self f) e.symm
        · simp [nextAt]
        · exact (hold n hfn).trans (nextAt_fresh hm hn)
      · refine (ih d (by simp [hd])).congr fun g hg => hold g fun e => ?_
        exact hfd f (by simp) g (List.mem_flatten.mpr ⟨d, hd, hg⟩) e

theorem Made.head_kind {past : List (Call V)} {cs : List (List Name)} (hm : Made past cs)
    {hd : Name} {ns : List Name} (hc : hd :: ns ∈ cs) :
    ∃ k, kindAt past hd = some k ∧ (k = .bound ∨ k = .unbound) := by
  obtain ⟨F, hF, hk, -⟩ := hm.stocked hd (hm.mem hd (List.mem_flatten.mpr ⟨_, hc, by simp⟩))
  have h1 : place past hd :: ns.map (place past) ∈ placed past cs :=
    List.mem_map_of_mem (f := List.map (place past)) hc
  exact ⟨F.kind, hk, hm.built.head_kind h1 hF⟩

/-- every future without a body heads a chain -/
theorem Made.headed {past : List (Call V)} {cs : List (List Name)} (hm : Made past cs) {n : Name}
    {k : Kind V} (hk : kindAt past n = some k) (hroot : k = .bound ∨ k = .unbound) :
    ∃ ns, n :: ns ∈ cs := by
  have hnew : ∀ (c : Call V) (past : List (Call V)), kindAt (c :: past) n = some k →
      (c.name = n ∧ c.kind = k) ∨ kindAt past n = some k := by
    intro c past hk
    by_cases e : c.name = n
    · subst e
      rw [kindAt_self] at hk
      exact .inl ⟨rfl, Option.some.inj hk⟩
    · exact .inr (kindAt_old past e ▸ hk)
  induction hm with
  | empty => cases hk
  | @bound past cs m vs hm hn ih =>
    rcases hnew _ _ hk with ⟨rfl, -⟩ | hk
    · exact ⟨[], List.mem_cons_self ..⟩
    · obtain ⟨ns, hns⟩ := ih hk
      exact ⟨ns, List.mem_cons_of_mem _ hns⟩
  | @unbound past cs m hm hn ih =>
    rcases hnew _ _ hk with ⟨rfl, -⟩ | hk
    · exact ⟨[], List.mem_cons_self ..⟩
    · obtain ⟨ns, hns⟩ := ih hk
      exact ⟨ns, List.mem_cons_of_mem _ hns⟩
  | @except past cs f x hm hf hx ih =>
    rcases hnew _ _ hk with ⟨-, rfl⟩ | hk
    · rcases hroot with h | h <;> cases h
    · exact ih hk
  | @then_ past cs ds c f m b hm hn ih =>
    rcases hnew _ _ hk with ⟨-, rfl⟩ | hk
    · rcases hroot with h | h <;> cases h
    · obtain ⟨ns, hns⟩ := ih hk
      rcases List.mem_append.mp hns with h | h
      · exact ⟨ns, List.mem_append_left _ h⟩
      · rcases List.mem_cons.mp h with h | h
        · refine ⟨ns ++ [m], List.mem_append_right _ (List.mem_cons.mpr (.inl ?_))⟩
          rw [← List.cons_append, h]
          simp
        · exact ⟨ns, List.mem_append_right _ (List.mem_cons_of_mem _ h)⟩

/-! ## the same calls in another order -/

theorem Made.names_nodup {past : List (Call V)} {cs : List (List Name)} (hm : Made past cs) :
    (past.map Call.name).Nodup := by
  induction hm with
  | empty => exact List.nodup_nil
  | bound vs _ hn ih => exact List.nodup_cons.mpr ⟨hn, ih⟩
  | unbound _ hn ih => exact List.nodup_cons.mpr ⟨hn, ih⟩
  | then_ b _ hn ih => exact List.nodup_cons.mpr ⟨hn, ih⟩
  | except _ _ hx ih => exact List.nodup_cons.mpr ⟨hx, ih⟩

/-- the call that gives a name does not depend on the order -/
theorem find_perm {l l' : List (Call V)} (hnd : (l.map Call.name).Nodup) (hp : l.Perm l')
    (n : Name) : l'.find? (fun c => c.name = n) = l.find? (fun c => c.name = n) := by
  cases h : l.find? (fun c => c.name = n) with
  | none =>
    refine List.find?_eq_none.mpr fun c hc => ?_
    exact List.find?_eq_none.mp h c (hp.mem_iff.mpr hc)
  | some c =>
    have hc := List.mem_of_find?_eq_some h
    have hn : c.name = n := by simpa using List.find?_some h
    cases h' : l'.find? (fun c => c.name = n) with
    | none => exact absurd hn (by simpa using List.find?_eq_none.mp h' c (hp.mem_iff.mp hc))
    | some d =>
      have hd := hp.mem_iff.mpr (List.mem_of_find?_eq_some h')
      have hn' : d.name = n := by simpa using List.find?_some h'
      exact congrArg some (List.inj_on_of_nodup_map hnd hd hc (hn'.trans hn.symm))

theorem kindAt_perm {l l' : List (Call V)} (hnd : (l.map Call.name).Nodup) (hp : l.Perm l')
    (n : Name) : kindAt l' n = kindAt l n := by
  unfold kindAt
  rw [find_perm hnd hp]

theorem valueAt_perm {l l' : List (Call V)} (hnd : (l.map Call.name).Nodup) (hp : l.Perm l') :
    valueAt l' = valueAt l := by
  funext n
  unfold valueAt
  rw [find_perm hnd hp]

theorem findSome?_filter {α β : Type} {p : α → Bool} {g : α → Option β} {l : List α}
    (h : ∀ a, p a = false → g a = none) : (l.filter p).findSome? g = l.findSome? g := by
  induction l with
  | nil => rfl
  | cons a l ih =>
    cases hp : p a with
    | true => rw [List.filter_cons_of_pos hp, List.findSome?_cons, List.findSome?_cons, ih]
    | false =>
      rw [List.filter_cons_of_neg (by simp [hp]), List.findSome?_cons, h a hp]
      exact ih

/-- the calls on a future -/
def callsOn (past : List (Call V)) (n : Name) : List (Call V) := past.filter fun c => c.on = some n

theorem slotAt_callsOn (past : List (Call V)) (n : Name) :
    slotAt (callsOn past n) n = slotAt past n := by
  unfold slotAt callsOn
  rw [List.find?_filter]
  simp

theorem handlerAt_callsOn (past : List (Call V)) (n : Name) :
    handlerAt (callsOn past n) n = handlerAt past n := by
  refine findSome?_filter fun c hon => ?_
  cases c with
  | except f x =>
    have hne : f ≠ n := fun e => by simp [Call.on, e] at hon
    simp [hne]
  | bound m vs => rfl
  | unbound m => rfl
  | then_ f b m => rfl

theorem nextAt_callsOn (past : List (Call V)) (n : Name) :
    nextAt (callsOn past n) n = nextAt past n := by
  refine findSome?_filter fun c hon => ?_
  cases c with
  | then_ f b m =>
    have hne : f ≠ n := fun e => by simp [Call.on, e] at hon
    simp [hne]
  | bound m vs => rfl
  | unbound m => rfl
  | except f x => rfl

/-- with the same heads and continuations, the same chains -/
theorem Made.same_chain {l l' : List (Call V)} {cs cs' : List (List Name)} (hm : Made l cs)
    (hm' : Made l' cs') {hd : Name} {ns : List Name} (hk : kindAt l' hd = kindAt l hd)
    (hnext : ∀ f, nextAt l' f = nextAt l f) (hc : hd :: ns ∈ cs) : hd :: ns ∈ cs' := by
  obtain ⟨k, hkind, hroot⟩ := hm.head_kind hc
  obtain ⟨ns', hc'⟩ := hm'.headed (hk.trans hkind) hroot
  have h1 := (hm'.continues _ hc').congr fun f _ => (hnext f).symm
  rwa [(hm.continues _ hc).unique h1]

end

end Future
end Pharoah
