import Pharoah.Future.Pieces

/-!
# Futures: constructions by name

The refs of a heap say in which order its futures were created.  To compare constructions that make
the same calls in another order, each future and each handler gets a name of its own.

* `Call`, `build past`   the calls of a construction, the latest first, and the heap they make;
* `Made past cs`         every call is possible where it is made; `cs` are the chains, by name;
* `place past n`         the ref of the future named `n`;
* `named past ns`        a chain by name, read off the calls.

`Made.built`: the calls build these chains in the heap, and `chain_build`: **the chain in the heap
is the named chain, each name replaced by its place**.
-/

namespace Pharoah
namespace Future

open Prog

/-- the variable that holds a future, or a label for a handler -/
abbrev Name := Nat

/-- One statement of a construction, as `auto n = f->then(b)`. -/
inductive Call (V : Type) where
  | bound (n : Name) (vs : List V)
  | unbound (n : Name)
  | then_ (f : Name) (b : Body V) (n : Name)
  | except (f : Name) (x : Name)

section
variable {V : Type}

namespace Call

/-- the future, or the handler, that the call creates -/
def name : Call V → Name
  | .bound n _ => n
  | .unbound n => n
  | .then_ _ _ n => n
  | .except _ x => x

/-- the future that the call is made on -/
def on : Call V → Option Name
  | .then_ f _ _ => some f
  | .except f _ => some f
  | _ => none

end Call

/-- Every call creates one object, at the end of the heap. -/
def place : List (Call V) → Name → Ref
  | [], _ => 0
  | c :: past, n => if c.name = n then past.length else place past n

def Call.make (past : List (Call V)) (h : Heap V) : Call V → Heap V
  | .bound _ vs => Future.bound h vs
  | .unbound _ => Future.unbound h
  | .then_ f b _ => Future.then_ h (place past f) b
  | .except f _ => Future.except h (place past f)

def build : List (Call V) → Heap V
  | [] => []
  | c :: past => c.make past (build past)

/-- Names are new where they are given, `then_` is called on the last future of a chain, and
`except` on any future of a chain. -/
inductive Made : List (Call V) → List (List Name) → Prop where
  | empty : Made [] []
  | bound {past : List (Call V)} {cs : List (List Name)} {n : Name} (vs : List V) :
      Made past cs → n ∉ past.map Call.name → Made (.bound n vs :: past) ([n] :: cs)
  | unbound {past : List (Call V)} {cs : List (List Name)} {n : Name} :
      Made past cs → n ∉ past.map Call.name → Made (.unbound n :: past) ([n] :: cs)
  | then_ {past : List (Call V)} {cs ds : List (List Name)} {c : List Name} {f n : Name}
      (b : Body V) : Made past (cs ++ (c ++ [f]) :: ds) → n ∉ past.map Call.name →
      Made (.then_ f b n :: past) (cs ++ (c ++ [f, n]) :: ds)
  | except {past : List (Call V)} {cs : List (List Name)} {f x : Name} :
      Made past cs → f ∈ cs.flatten → x ∉ past.map Call.name → Made (.except f x :: past) cs

@[simp] theorem length_build (past : List (Call V)) : (build past).length = past.length := by
  induction past with
  | nil => rfl
  | cons c past ih => cases c <;> simp [build, Call.make, ih]

theorem place_self (c : Call V) (past : List (Call V)) : place (c :: past) c.name = past.length :=
  if_pos rfl

theorem place_old {c : Call V} {past : List (Call V)} {n : Name} (hc : c.name ∉ past.map Call.name)
    (hn : n ∈ past.map Call.name) : place (c :: past) n = place past n :=
  if_neg fun (e : c.name = n) => hc (e.symm ▸ hn)

theorem place_lt {past : List (Call V)} {n : Name} (hn : n ∈ past.map Call.name) :
    place past n < past.length := by
  induction past with
  | nil => exact absurd hn (by simp)
  | cons c past ih =>
    unfold place
    split
    · exact Nat.lt_succ_self _
    · next hne =>
      refine Nat.lt_succ_of_lt (ih ?_)
      rcases List.mem_cons.mp hn with h | h
      · exact absurd h.symm hne
      · exact h

theorem place_inj {past : List (Call V)} {n m : Name} (hn : n ∈ past.map Call.name)
    (hm : m ∈ past.map Call.name) (he : place past n = place past m) : n = m := by
  induction past with
  | nil => exact absurd hn (by simp)
  | cons c past ih =>
    have later : ∀ {k}, k ∈ (c :: past).map Call.name → c.name ≠ k → k ∈ past.map Call.name :=
      fun hk hne => (List.mem_cons.mp hk).resolve_left (Ne.symm hne)
    unfold place at he
    split at he
    · next h1 =>
      split at he
      · next h2 => exact h1.symm.trans h2
      · next h2 => exact absurd he.symm (Nat.ne_of_lt (place_lt (later hm h2)))
    · next h1 =>
      split at he
      · next h2 => exact absurd he (Nat.ne_of_lt (place_lt (later hn h1)))
      · next h2 => exact ih (later hn h1) (later hm h2) he

/-! ## the chains of a construction -/

theorem Made.mem {past : List (Call V)} {cs : List (List Name)} (hm : Made past cs) :
    ∀ n ∈ cs.flatten, n ∈ past.map Call.name := by
  induction hm with
  | empty => simp
  | bound vs _ _ ih =>
    intro n hn
    rcases List.mem_append.mp hn with hn | hn
    · rw [List.mem_singleton.mp hn]
      exact List.mem_cons_self ..
    · exact List.mem_cons_of_mem _ (ih n hn)
  | unbound _ _ ih =>
    intro n hn
    rcases List.mem_append.mp hn with hn | hn
    · rw [List.mem_singleton.mp hn]
      exact List.mem_cons_self ..
    · exact List.mem_cons_of_mem _ (ih n hn)
  | @then_ past cs ds c f m b _ _ ih =>
    intro n hn
    by_cases e : n = m
    · subst e
      exact List.mem_cons_self ..
    · refine List.mem_cons_of_mem _ (ih n ?_)
      simp only [List.flatten_append, List.flatten_cons, List.mem_append, List.mem_cons,
        List.not_mem_nil, or_false] at hn ⊢
      tauto
  | except _ _ _ ih => exact fun n hn => List.mem_cons_of_mem _ (ih n hn)

/-- calls are made on futures that are there -/
theorem Made.on_mem {past : List (Call V)} {cs : List (List Name)} (hm : Made past cs) :
    ∀ c ∈ past, ∀ f ∈ c.on, f ∈ past.map Call.name := by
  induction hm with
  | empty => simp
  | bound vs _ _ ih =>
    intro c hc f hf
    rcases List.mem_cons.mp hc with rfl | hc
    · cases hf
    · exact List.mem_cons_of_mem _ (ih c hc f hf)
  | unbound _ _ ih =>
    intro c hc f hf
    rcases List.mem_cons.mp hc with rfl | hc
    · cases hf
    · exact List.mem_cons_of_mem _ (ih c hc f hf)
  | @then_ past cs ds d g m b hm _ ih =>
    intro c hc f hf
    rcases List.mem_cons.mp hc with rfl | hc
    · cases hf
      exact List.mem_cons_of_mem _ (hm.mem g (by simp))
    · exact List.mem_cons_of_mem _ (ih c hc f hf)
  | @except past cs g x hm hg _ ih =>
    intro c hc f hf
    rcases List.mem_cons.mp hc with rfl | hc
    · cases hf
      exact List.mem_cons_of_mem _ (hm.mem g hg)
    · exact List.mem_cons_of_mem _ (ih c hc f hf)

/-- the same chains in the heap -/
def placed (past : List (Call V)) (cs : List (List Name)) : List (List Ref) :=
  cs.map (List.map (place past))

theorem placed_old {c : Call V} {past : List (Call V)} {cs : List (List Name)}
    (hc : c.name ∉ past.map Call.name) (hcs : ∀ n ∈ cs.flatten, n ∈ past.map Call.name) :
    placed (c :: past) cs = placed past cs := by
  apply List.map_congr_left
  intro ns hns
  apply List.map_congr_left
  intro n hn
  exact place_old hc (hcs n (List.mem_flatten.mpr ⟨ns, hns, hn⟩))

/-- The calls of a construction build its chains. -/
theorem Made.built {past : List (Call V)} {cs : List (List Name)} (hm : Made past cs) :
    Built Anywhere (build past) (placed past cs) := by
  induction hm with
  | empty => exact .empty
  | @bound past cs n vs hm hn ih =>
    have h1 := Built.bound vs ih
    rw [length_build] at h1
    rw [placed, List.map_cons, List.map_singleton, ← placed, placed_old hn hm.mem]
    rw [show place (Call.bound n vs :: past) n = past.length from place_self (.bound n vs) past]
    exact h1
  | @unbound past cs n hm hn ih =>
    have h1 := Built.unbound ih
    rw [length_build] at h1
    rw [placed, List.map_cons, List.map_singleton, ← placed, placed_old hn hm.mem]
    rw [show place (Call.unbound n :: past) n = past.length from place_self (.unbound n) past]
    exact h1
  | @then_ past cs ds c f n b hm hn ih =>
    have hself : place (Call.then_ f b n :: past) n = past.length := place_self (.then_ f b n) past
    have e1 : placed past (cs ++ (c ++ [f]) :: ds)
        = placed past cs ++ (c.map (place past) ++ [place past f]) :: placed past ds := by
      simp [placed]
    have e2 : placed (.then_ f b n :: past) (cs ++ (c ++ [f, n]) :: ds)
        = placed past cs ++ (c.map (place past) ++ [place past f, past.length])
          :: placed past ds := by
      have h1 := placed_old (c := .then_ f b n) hn hm.mem
      rw [e1] at h1
      simp only [placed, List.map_append, List.map_cons, List.map_nil] at h1 ⊢
      obtain ⟨h2, h3⟩ := List.append_inj h1 (by simp)
      obtain ⟨h3, h4⟩ := List.cons_eq_cons.mp h3
      obtain ⟨h3, h5⟩ := List.append_inj h3 (by simp)
      rw [h2, h3, h4, (List.cons_eq_cons.mp h5).1, hself]
    rw [e1] at ih
    have h1 := Built.then_ b ih trivial
    rw [length_build] at h1
    rw [e2]
    exact h1
  | @except past cs f x hm hf hx ih =>
    rw [placed_old hx hm.mem]
    refine ih.except ?_
    obtain ⟨ns, hns, hfn⟩ := List.mem_flatten.mp hf
    exact List.mem_flatten.mpr ⟨_, List.mem_map_of_mem hns, List.mem_map_of_mem hfn⟩

/-! ## the futures of a construction, read off the calls -/

/-- what the last `then` or `except` on `n` has stored in its `nxtForward` -/
def slotAt (past : List (Call V)) (n : Name) : Slot :=
  match past.find? fun c => c.on = some n with
  | some (.then_ _ _ _) => .next
  | some (.except _ x) => .handler x
  | _ => .empty

/-- the handler that was attached to `n` last -/
def handlerAt (past : List (Call V)) (n : Name) : Option Name :=
  past.findSome? fun
    | .except f x => if f = n then some x else none
    | _ => none

def Call.kind : Call V → Kind V
  | .bound _ _ => .bound
  | .unbound _ => .unbound
  | .then_ _ b _ => .body b
  | .except _ _ => .except

def Kind.body? : Kind V → Option (Body V)
  | .body b => some b
  | _ => none

/-- what was created under the name `n` -/
def kindAt (past : List (Call V)) (n : Name) : Option (Kind V) :=
  (past.find? fun c => c.name = n).map Call.kind

def bodyAt (past : List (Call V)) (n : Name) : Option (Body V) := (kindAt past n).bind Kind.body?

def stageAt (past : List (Call V)) (n : Name) : Option (Stage V) :=
  (bodyAt past n).map fun b => ⟨n, b, slotAt past n, handlerAt past n⟩

def named (past : List (Call V)) (ns : List Name) : Chain V := ns.filterMap (stageAt past)

def Slot.rename (ρ : Name → Ref) : Slot → Slot
  | .empty => .empty
  | .next => .next
  | .handler x => .handler (ρ x)

def Stage.rename (ρ : Name → Ref) (s : Stage V) : Stage V where
  this := ρ s.this
  body := s.body
  slot := s.slot.rename ρ
  nxtF := s.nxtF.map ρ

theorem kindAt_self (c : Call V) (past : List (Call V)) : kindAt (c :: past) c.name = some c.kind := by
  unfold kindAt
  rw [List.find?_cons_of_pos (by simp)]
  rfl

theorem kindAt_old {c : Call V} (past : List (Call V)) {n : Name} (hn : c.name ≠ n) :
    kindAt (c :: past) n = kindAt past n := by
  unfold kindAt
  rw [List.find?_cons_of_neg (by simpa using hn)]

theorem bodyAt_old {c : Call V} (past : List (Call V)) {n : Name} (hn : c.name ≠ n) :
    bodyAt (c :: past) n = bodyAt past n := by
  unfold bodyAt
  rw [kindAt_old past hn]

/-- a call that is not on `n` and does not create it does not change its stage -/
theorem stageAt_other {c : Call V} (past : List (Call V)) {n : Name} (hn : c.name ≠ n)
    (hon : c.on ≠ some n) : stageAt (c :: past) n = stageAt past n := by
  have h1 : slotAt (c :: past) n = slotAt past n := by
    unfold slotAt
    rw [List.find?_cons_of_neg (by simpa using hon)]
  have h2 : handlerAt (c :: past) n = handlerAt past n := by
    unfold handlerAt
    rw [List.findSome?_cons]
    cases c with
    | except f x =>
      have hne : f ≠ n := fun e => hon (by rw [e]; rfl)
      simp [hne]
    | bound m vs => rfl
    | unbound m => rfl
    | then_ f b m => rfl
  rw [stageAt, h1, h2, bodyAt_old past hn, ← stageAt]

/-- names that no call has given yet -/
theorem Made.fresh {past : List (Call V)} {cs : List (List Name)} (hm : Made past cs) {n : Name}
    (hn : n ∉ past.map Call.name) :
    slotAt past n = .empty ∧ handlerAt past n = none := by
  have hon : ∀ c ∈ past, c.on ≠ some n := fun c hc e => hn (hm.on_mem c hc n e)
  constructor
  · unfold slotAt
    rw [List.find?_eq_none.mpr fun c hc => by simpa using hon c hc]
  · refine List.findSome?_eq_none_iff.mpr fun c hc => ?_
    cases c with
    | except f x =>
      have hne : f ≠ n := fun e => hon _ hc (by rw [e]; rfl)
      simp [hne]
    | bound m vs => rfl
    | unbound m => rfl
    | then_ f b m => rfl

/-- handlers have names -/
theorem slotAt_mem {past : List (Call V)} {n x : Name} (h : slotAt past n = .handler x) :
    Call.except n x ∈ past := by
  unfold slotAt at h
  split at h
  · cases h
  · next f y hfind =>
    cases h
    have h1 := List.find?_some hfind
    obtain rfl : f = n := by simpa [Call.on] using h1
    exact List.mem_of_find?_eq_some hfind
  · cases h

theorem handlerAt_mem {past : List (Call V)} {n x : Name} (h : handlerAt past n = some x) :
    Call.except n x ∈ past := by
  obtain ⟨c, hc, hx⟩ := List.exists_of_findSome?_eq_some h
  cases c with
  | except f y =>
    simp only at hx
    split at hx
    · next e =>
      cases hx
      rw [← e]
      exact hc
    · cases hx
  | bound m vs => cases hx
  | unbound m => cases hx
  | then_ f b m => cases hx

/-- a stage does not change its place when names are added -/
theorem Stage.rename_old {c : Call V} {past : List (Call V)} (hc : c.name ∉ past.map Call.name)
    {n : Name} {s : Stage V} (hs : stageAt past n = some s) (hn : n ∈ past.map Call.name) :
    s.rename (place (c :: past)) = s.rename (place past) := by
  obtain ⟨b, -, rfl⟩ := Option.map_eq_some_iff.mp hs
  have hx : ∀ x, Call.except n x ∈ past → place (c :: past) x = place past x := fun x hx =>
    place_old hc (List.mem_map_of_mem hx)
  unfold Stage.rename
  rw [place_old hc hn]
  congr 1
  · show Slot.rename _ (slotAt past n) = Slot.rename _ (slotAt past n)
    cases hslot : slotAt past n with
    | empty => rfl
    | next => rfl
    | handler x => exact congrArg Slot.handler (hx x (slotAt_mem hslot))
  · show (handlerAt past n).map _ = (handlerAt past n).map _
    cases hh : handlerAt past n with
    | none => rfl
    | some x => exact congrArg some (hx x (handlerAt_mem hh))

/-! ## the heap of a construction -/

theorem stage?_some {h : Heap V} {r : Ref} {F : Object V} (hF : h[r]? = some F) :
    stage? h r = F.kind.body?.map fun b => ⟨r, b, slotOf F.nxtForward, F.nxtF⟩ := by
  obtain ⟨k, v, n1, n2, n3, n4, n5, e⟩ := F
  unfold stage?
  rw [hF]
  cases k <;> rfl

/-- the stages in the heap are those read off the calls -/
def Faithful (past : List (Call V)) : Prop :=
  ∀ n ∈ past.map Call.name,
    stage? (build past) (place past n) = (stageAt past n).map (Stage.rename (place past))

theorem get_make_old {c : Call V} {past : List (Call V)} {r : Ref} (hr : r < past.length)
    (hon : ∀ f ∈ c.on, place past f ≠ r) : (build (c :: past))[r]? = (build past)[r]? := by
  have hr' : r < (build past).length := by rwa [length_build]
  cases c with
  | bound n vs => exact get_old _ _ hr'
  | unbound n => exact get_old _ _ hr'
  | then_ f b n => exact get_then_other b hr' (hon f rfl)
  | except f x => exact get_except_other hr' (hon f rfl)

/-- the stage that a call creates -/
def Call.stage : Call V → Option (Stage V)
  | .then_ _ b n => some ⟨n, b, .empty, none⟩
  | _ => none

theorem stage?_new (c : Call V) (past : List (Call V)) : stage? (build (c :: past)) past.length
    = c.stage.map fun s => ⟨past.length, s.body, .empty, none⟩ := by
  have hlast : ∀ (h : Heap V), h.length = past.length → ∀ F, (h ++ [F])[past.length]? = some F :=
    fun h hl F => by rw [← hl]; exact get_new h F
  cases c with
  | bound n vs => exact stage?_some (hlast (build past) (length_build past) _)
  | unbound n => exact stage?_some (hlast (build past) (length_build past) _)
  | then_ f b n => exact stage?_some (hlast _ (by simp) _)
  | except f x => exact stage?_some (hlast _ (by simp) _)

theorem stageAt_new {c : Call V} {past : List (Call V)} {cs : List (List Name)} (hm : Made past cs)
    (hc : c.name ∉ past.map Call.name) (hon : ∀ f ∈ c.on, f ∈ past.map Call.name) :
    stageAt (c :: past) c.name = c.stage := by
  obtain ⟨h1, h2⟩ := hm.fresh hc
  have hself : c.on ≠ some c.name := fun e => hc (hon _ e)
  have hslot : slotAt (c :: past) c.name = slotAt past c.name := by
    unfold slotAt
    rw [List.find?_cons_of_neg (by simpa using hself)]
  unfold stageAt
  rw [bodyAt, kindAt_self, hslot, h1]
  cases c with
  | bound n vs => rfl
  | unbound n => rfl
  | except f x => rfl
  | then_ f b n =>
    show some (Stage.mk n b .empty (handlerAt past n)) = _
    rw [show handlerAt past n = none from h2]
    rfl

/-- what a faithful heap knows of a future, but for its `nxtForward` -/
theorem Faithful.object {past : List (Call V)} (hf : Faithful past) {n : Name}
    (hn : n ∈ past.map Call.name) : ∃ F, (build past)[place past n]? = some F ∧
      F.kind.body? = bodyAt past n ∧
      ∀ b, bodyAt past n = some b → F.nxtF = (handlerAt past n).map (place past) := by
  have hlt : place past n < (build past).length := by
    rw [length_build]
    exact place_lt hn
  have h1 := hf n hn
  rw [stage?_some (List.getElem?_eq_getElem hlt), stageAt] at h1
  refine ⟨_, List.getElem?_eq_getElem hlt, ?_⟩
  cases hk : (build past)[place past n].kind.body? with
  | none =>
    rw [hk] at h1
    cases hb : bodyAt past n with
    | none => exact ⟨rfl, fun b e => (by cases e)⟩
    | some b => rw [hb] at h1; cases h1
  | some b' =>
    rw [hk] at h1
    cases hb : bodyAt past n with
    | none => rw [hb] at h1; cases h1
    | some b =>
      rw [hb] at h1
      simp only [Option.map_some, Option.some.injEq, Stage.rename, Stage.mk.injEq] at h1
      obtain ⟨-, rfl, -, h2⟩ := h1
      exact ⟨rfl, fun _ _ => h2⟩

theorem stageAt_on {c : Call V} {n : Name} (past : List (Call V)) (hnew : c.name ≠ n) :
    stageAt (c :: past) n
      = (bodyAt past n).map fun b => ⟨n, b, slotAt (c :: past) n, handlerAt (c :: past) n⟩ := by
  unfold stageAt
  rw [bodyAt_old past hnew]

/-- the future that `then` is called on -/
theorem Faithful.then_self {past : List (Call V)} (hf : Faithful past) {f m : Name} {b : Body V}
    (hc : (Call.then_ f b m).name ∉ past.map Call.name) (hold : f ∈ past.map Call.name) :
    stage? (build (.then_ f b m :: past)) (place past f)
      = (stageAt (.then_ f b m :: past) f).map (Stage.rename (place (.then_ f b m :: past))) := by
  obtain ⟨F, hF, hbody, hnxtF⟩ := hf.object hold
  have hplace := place_old hc hold
  rw [stageAt_on past fun e => hc (e ▸ hold),
    show build (.then_ f b m :: past) = then_ (build past) (place past f) b from rfl,
    stage?_some (get_then_self b hF)]
  show (F.kind.body?).map _ = _
  rw [hbody]
  cases hb : bodyAt past f with
  | none => rfl
  | some b' =>
    have hslot : slotAt (.then_ f b m :: past) f = .next := by simp [slotAt, Call.on]
    have hsame : (handlerAt past f).map (place (.then_ f b m :: past))
        = (handlerAt past f).map (place past) := by
      cases hh : handlerAt past f with
      | none => rfl
      | some x => exact congrArg some (place_old hc (List.mem_map_of_mem (handlerAt_mem hh)))
    rw [hslot]
    show some (Stage.mk (place past f) b' .next F.nxtF)
      = some (Stage.mk (place _ f) b' .next ((handlerAt past f).map (place _)))
    rw [hnxtF b' hb, hplace, hsame]

/-- the future that `except` is called on -/
theorem Faithful.except_self {past : List (Call V)} (hf : Faithful past) {f x : Name}
    (hc : (Call.except f x : Call V).name ∉ past.map Call.name) (hold : f ∈ past.map Call.name) :
    stage? (build (.except f x :: past)) (place past f)
      = (stageAt (.except f x :: past) f).map (Stage.rename (place (.except f x :: past))) := by
  obtain ⟨F, hF, hbody, -⟩ := hf.object hold
  have hplace := place_old hc hold
  rw [stageAt_on past fun e => hc (e ▸ hold),
    show build (.except f x :: past) = except (build past) (place past f) from rfl,
    stage?_some (get_except_self hF)]
  show (F.kind.body?).map _ = _
  rw [hbody]
  cases hb : bodyAt past f with
  | none => rfl
  | some b' =>
    have hslot : slotAt (.except f x :: past) f = .handler x := by simp [slotAt, Call.on]
    have hhandler : handlerAt (.except f x :: past) f = some x := by simp [handlerAt]
    have hx : place (.except f x :: past) x = (build past).length := by
      rw [length_build]
      exact place_self (.except f x) past
    rw [hslot, hhandler]
    show some (Stage.mk (place past f) b' (.handler (build past).length)
        (some (build past).length))
      = some (Stage.mk (place _ f) b' (.handler (place _ x)) (some (place _ x)))
    rw [hplace, hx]

theorem Faithful.cons {c : Call V} {past : List (Call V)} {cs : List (List Name)}
    (hm : Made past cs) (hf : Faithful past) (hc : c.name ∉ past.map Call.name)
    (hon : ∀ f ∈ c.on, f ∈ past.map Call.name) : Faithful (c :: past) := by
  intro n hn
  by_cases hnew : c.name = n
  · subst hnew
    rw [place_self, stageAt_new hm hc hon, stage?_new]
    have hself := place_self c past
    cases c with
    | then_ f b n =>
      show some (Stage.mk past.length b .empty none) = some (Stage.mk (place _ n) b .empty none)
      rw [show place (Call.then_ f b n :: past) n = past.length from hself]
    | bound n vs => rfl
    | unbound n => rfl
    | except f x => rfl
  · have hold : n ∈ past.map Call.name := (List.mem_cons.mp hn).resolve_left (Ne.symm hnew)
    rw [place_old hc hold]
    have hren : (stageAt past n).map (Stage.rename (place (c :: past)))
        = (stageAt past n).map (Stage.rename (place past)) := by
      cases hs : stageAt past n with
      | none => rfl
      | some s => exact congrArg some (Stage.rename_old hc hs hold)
    by_cases hself : c.on = some n
    · cases c with
      | bound m vs => cases hself
      | unbound m => cases hself
      | then_ f b m =>
        obtain rfl : f = n := by simpa [Call.on] using hself
        exact hf.then_self hc hold
      | except f x =>
        obtain rfl : f = n := by simpa [Call.on] using hself
        exact hf.except_self hc hold
    · rw [stageAt_other past hnew hself, hren, ← hf n hold]
      unfold stage?
      rw [get_make_old (place_lt hold) fun f hf' e => hself ?_]
      rw [place_inj (hon f hf') hold e] at hf'
      exact hf'

theorem Made.faithful {past : List (Call V)} {cs : List (List Name)} (hm : Made past cs) :
    Faithful past := by
  induction hm with
  | empty => exact fun n hn => absurd hn (by simp)
  | bound vs hm hn ih => exact ih.cons hm hn (fun f hf => (by cases hf))
  | unbound hm hn ih => exact ih.cons hm hn (fun f hf => (by cases hf))
  | then_ b hm hn ih =>
    refine ih.cons hm hn (fun f hf => ?_)
    cases hf
    exact hm.mem _ (by simp)
  | except hm hg hx ih =>
    refine ih.cons hm hx (fun f hf => ?_)
    cases hf
    exact hm.mem _ hg

/-- **The chain in the heap is the named chain, in its places.** -/
theorem chain_build {past : List (Call V)} {cs : List (List Name)} (hm : Made past cs)
    {ns : List Name} (hns : ∀ n ∈ ns, n ∈ past.map Call.name) :
    chain (build past) (ns.map (place past)) = (named past ns).map (Stage.rename (place past)) := by
  induction ns with
  | nil => rfl
  | cons n ns ih =>
    have h1 := hm.faithful n (hns n (List.mem_cons_self ..))
    have h2 := ih fun m hmn => hns m (List.mem_cons_of_mem _ hmn)
    unfold chain named at h2 ⊢
    rw [List.map_cons, List.filterMap_cons, List.filterMap_cons, h1]
    cases stageAt past n with
    | none => exact h2
    | some s => exact congrArg (List.cons _) h2

end

end Future
end Pharoah
