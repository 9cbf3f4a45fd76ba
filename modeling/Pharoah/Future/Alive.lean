import Pharoah.Future.Owners
import Pharoah.Future.Order

/-!
# Futures: is a future still owned when it is reached?

A future is owned by the handles user code has of it, and by the `nxt` and `nxtF` of a future that
is owned; every closure holds a raw `this`.

* `owns`, `Program.Owned`   the `shared_ptr`s inside futures, and the futures they keep alive;
* `Object.Wired`            each closure in a future leads where one of its `shared_ptr`s leads;
* `Program.needs`           the futures that are still to be used by code that is running or queued;
* `Keeps s a`               the reference that `a` lets go of was not the last for one of them;
* `Guarded`                 the links are wired and the needed futures owned: `Guarded.step`.

`reached_owned`: **in a run that `Keeps` the needed futures every future that is read is owned**.
-/

namespace Pharoah
namespace Future

open Lts

section
variable {V : Type}

/-- `p` has a `shared_ptr` to `q`. -/
def owns (h : Heap V) (p q : Ref) : Prop :=
  ∃ F, h[p]? = some F ∧ (F.nxt = some q ∨ F.nxtF = some q)

/-- `r` has an owner that is not itself gone. -/
def Program.Owned (s : Program V) (r : Ref) : Prop := Pharoah.Owned (· ∈ s.handles) (owns s.heap) r

/-! ## closures and references -/

def Fwd.target : Fwd → Ref
  | .errbody x => x
  | .forward f => f

/-- The closures of a future lead where its `shared_ptr`s lead. -/
structure Object.Wired (F : Object V) : Prop where
  accept : ∀ g, F.nxtAccept = some g → F.nxt = some g
  reject : F.nxtReject = none
  forward : ∀ g, F.nxtForward = some g → F.nxt = some g.target ∨ F.nxtF = some g.target

def Wired (h : Heap V) : Prop := ∀ (p : Ref) (F : Object V), h[p]? = some F → F.Wired

theorem Object.wired_new (k : Kind V) (vs : List V) : Object.Wired { kind := k, value := vs } :=
  ⟨fun _ hg => (by cases hg), rfl, fun _ hg => (by cases hg)⟩

theorem Wired.push {h : Heap V} (hw : Wired h) {F : Object V} (hF : F.Wired) : Wired (h ++ [F]) := by
  intro p G hG
  obtain hG | ⟨-, rfl⟩ := getElem?_push.mp hG
  · exact hw p G hG
  · exact hF

theorem Wired.modify {h : Heap V} (hw : Wired h) {g : Object V → Object V} {f : Ref}
    (hg : ∀ F, F.Wired → (g F).Wired) : Wired (h.modify f g) := by
  intro p G hG
  rw [List.getElem?_modify, Option.map_eq_map, Option.map_eq_some_iff] at hG
  obtain ⟨F, hF, rfl⟩ := hG
  split
  · exact hg F (hw p F hF)
  · exact hw p F hF

theorem Wired.then_ {h : Heap V} (hw : Wired h) (f : Ref) (b : Body V) : Wired (then_ h f b) := by
  unfold Future.then_
  apply Wired.push
  · apply hw.modify
    intro F hF
    refine ⟨fun g hg => hg, hF.reject, fun g hg => Or.inl ?_⟩
    cases hg
    rfl
  · exact Object.wired_new _ []

theorem Wired.except {h : Heap V} (hw : Wired h) (f : Ref) : Wired (except h f) := by
  unfold Future.except
  apply Wired.push
  · apply hw.modify
    intro F hF
    refine ⟨hF.accept, hF.reject, fun g hg => Or.inr ?_⟩
    cases hg
    rfl
  · exact Object.wired_new _ []

/-! ## what a call leaves alone -/

/-- a future without the data that a call changes -/
def Object.links (F : Object V) : Object V := { F with value := [], errored := false }

/-- The heaps differ in values and in `errored`. -/
def SameLinks (h h' : Heap V) : Prop := h.map Object.links = h'.map Object.links

theorem SameLinks.refl (h : Heap V) : SameLinks h h := rfl

theorem SameLinks.trans {h h' h'' : Heap V} (h1 : SameLinks h h') (h2 : SameLinks h' h'') :
    SameLinks h h'' := Eq.trans h1 h2

theorem SameLinks.symm {h h' : Heap V} (h1 : SameLinks h h') : SameLinks h' h := Eq.symm h1

theorem sameLinks_modify (h : Heap V) (f : Ref) {g : Object V → Object V}
    (hg : ∀ F, (g F).links = F.links) : SameLinks (h.modify f g) h := by
  apply List.ext_getElem?
  intro p
  rw [List.getElem?_map, List.getElem?_map, List.getElem?_modify]
  cases h[p]? with
  | none => rfl
  | some F =>
    show some (Object.links (if f = p then g F else F)) = some F.links
    split
    · rw [hg F]
    · rfl

theorem SameLinks.get {h h' : Heap V} (hs : SameLinks h h') {p : Ref} {F : Object V}
    (hF : h[p]? = some F) : ∃ F', h'[p]? = some F' ∧ F'.links = F.links := by
  have h1 : (h'.map Object.links)[p]? = some F.links := by
    rw [← show h.map Object.links = h'.map Object.links from hs, List.getElem?_map, hF]
    rfl
  rw [List.getElem?_map, Option.map_eq_some_iff] at h1
  exact h1

theorem links_eq {F G : Object V} (h : F.links = G.links) : F.kind = G.kind ∧ F.nxt = G.nxt ∧
    F.nxtF = G.nxtF ∧ F.nxtAccept = G.nxtAccept ∧ F.nxtReject = G.nxtReject ∧
    F.nxtForward = G.nxtForward := by
  cases F
  cases G
  simp only [Object.links, Object.mk.injEq] at h
  exact ⟨h.1, h.2.2.1, h.2.2.2.1, h.2.2.2.2.1, h.2.2.2.2.2.1, h.2.2.2.2.2.2.1⟩

theorem SameLinks.owns_of {h h' : Heap V} (hs : SameLinks h h') {p q : Ref} (ho : owns h p q) :
    owns h' p q := by
  obtain ⟨F, hF, hq⟩ := ho
  obtain ⟨F', hF', hl⟩ := hs.get hF
  obtain ⟨-, hn, hx, -⟩ := links_eq hl
  exact ⟨F', hF', by rwa [hn, hx]⟩

theorem SameLinks.owns {h h' : Heap V} (hs : SameLinks h h') : owns h = owns h' := by
  funext p q
  exact propext ⟨hs.owns_of, hs.symm.owns_of⟩

theorem SameLinks.wired {h h' : Heap V} (hs : SameLinks h h') (hw : Wired h) : Wired h' := by
  intro p F hF
  obtain ⟨G, hG, hl⟩ := hs.symm.get hF
  obtain ⟨-, hn, hx, ha, hr, hf⟩ := links_eq hl
  obtain ⟨h1, h2, h3⟩ := hw p G hG
  exact ⟨fun g hg => hn ▸ h1 g (ha ▸ hg), hr ▸ h2, fun g hg => hn ▸ hx ▸ h3 g (hf ▸ hg)⟩

/-! ## what is still needed -/

/-- The body of a future still needs it, unless there is nothing to do after it. -/
def bodyNeeds (h : Heap V) (f : Ref) : Option Ref :=
  match (h[f]?).map Object.kind with
  | some (.body (.noFun .void _)) => none
  | _ => some f

/-- the future that running code will use when it returns or calls a function it was given -/
def Frame.needs (h : Heap V) : Frame V → Option Ref
  | .call (.body f _) => bodyNeeds h f
  | .call (.handler _ _) => none
  | .task fn => fn.map Funs.this

/-- the futures that running and queued code may still use -/
def Program.needs (s : Program V) : List Ref :=
  s.dyn_tq.filterMap (fun t => t.map Funs.this) ++ s.stack.filterMap (Frame.needs s.heap)

theorem bodyNeeds_eq {h : Heap V} {f r : Ref} (hr : bodyNeeds h f = some r) : r = f := by
  unfold bodyNeeds at hr
  split at hr
  · cases hr
  · exact (Option.some.inj hr).symm

theorem bodyNeeds_mono {h h' : Heap V} (hk : KeepsKinds h h') {f r : Ref}
    (hr : bodyNeeds h' f = some r) : bodyNeeds h f = some r := by
  have hf : r = f := bodyNeeds_eq hr
  unfold bodyNeeds at hr ⊢
  split
  · next c hc =>
    rw [hk _ _ hc] at hr
    exact hr
  · rw [hf]

theorem Frame.needs_mono {h h' : Heap V} (hk : KeepsKinds h h') {c : Frame V} {r : Ref}
    (hr : c.needs h' = some r) : c.needs h = some r := by
  cases c with
  | task fn => exact hr
  | call e =>
    cases e with
    | handler x args => exact hr
    | body f args => exact bodyNeeds_mono hk hr

theorem bodyNeeds_funs {h : Heap V} {f : Ref} {fn : Funs} (hf : bodyFuns h f = some fn) :
    bodyNeeds h f = some fn.this := by
  unfold bodyFuns at hf
  unfold bodyNeeds
  split at hf
  · next b hb => cases hf; rw [hb]
  · next r b hb => cases hf; rw [hb]
  · cases hf

/-- the functions of running code are those of a future that it needs -/
theorem Frame.needs_funs {h : Heap V} {c : Frame V} {fn : Funs} (hf : c.funs h = some fn) :
    c.needs h = some fn.this := by
  cases c with
  | task t =>
    have ht : t = some fn := hf
    rw [ht]
    rfl
  | call e =>
    cases e with
    | handler x args => cases hf
    | body f args => exact bodyNeeds_funs hf

/-! ## calls read owned futures -/

/-- A call has read owned futures only, changed no link, and reached a body of an owned future. -/
structure Reach.Ok (roots : Ref → Prop) (h : Heap V) (r : Reach V) : Prop where
  links : SameLinks r.heap h
  derefs : ∀ d ∈ r.derefs, Pharoah.Owned roots (owns h) d
  calls : ∀ c ∈ r.calls, ∀ g, c.needs r.heap = some g → Pharoah.Owned roots (owns h) g

section
variable {roots : Ref → Prop} {h h' : Heap V} {f : Ref}

theorem Reach.ok_stop (hf : Pharoah.Owned roots (owns h) f) : Reach.Ok roots h ⟨[f], h, []⟩ :=
  ⟨.refl h, fun d hd => (List.mem_singleton.mp hd) ▸ hf, fun c hc => (by cases hc)⟩

theorem Reach.ok_nil : Reach.Ok roots h ⟨[], h, []⟩ :=
  ⟨.refl h, fun d hd => (by cases hd), fun c hc => (by cases hc)⟩

theorem Reach.Ok.after {r : Reach V} (hr : r.Ok roots h) (hf : Pharoah.Owned roots (owns h) f) :
    (r.after f).Ok roots h := by
  refine ⟨hr.links, fun d hd => ?_, hr.calls⟩
  obtain hd | hd := List.mem_cons.mp hd
  · exact hd ▸ hf
  · exact hr.derefs d hd

/-- a call made after values or `errored` have changed -/
theorem Reach.Ok.of_same {r : Reach V} (hs : SameLinks h' h) (hr : r.Ok roots h') : r.Ok roots h := by
  have he : owns h' = owns h := hs.owns
  obtain ⟨h1, h2, h3⟩ := hr
  exact ⟨h1.trans hs, he ▸ h2, he ▸ h3⟩

theorem owned_next (hw : Wired h) (hf : Pharoah.Owned roots (owns h) f) {g : Ref}
    (hg : (h[f]?).bind Object.nxtAccept = some g) : Pharoah.Owned roots (owns h) g := by
  obtain ⟨F, hF, hFg⟩ := Option.bind_eq_some_iff.mp hg
  exact hf.step ⟨F, hF, Or.inl ((hw f F hF).accept g hFg)⟩

theorem owned_forward (hw : Wired h) (hf : Pharoah.Owned roots (owns h) f) {g : Fwd}
    (hg : (h[f]?).bind Object.nxtForward = some g) : Pharoah.Owned roots (owns h) g.target := by
  obtain ⟨F, hF, hFg⟩ := Option.bind_eq_some_iff.mp hg
  exact hf.step ⟨F, hF, (hw f F hF).forward g hFg⟩

theorem errbodyTo_ok (hf : Pharoah.Owned roots (owns h) f) (args : List V) :
    (errbodyTo h f args).Ok roots h := by
  unfold errbodyTo
  split
  · refine ⟨.refl h, fun d hd => (List.mem_singleton.mp hd) ▸ hf, fun c hc g hg => ?_⟩
    rw [List.mem_singleton.mp hc] at hg
    cases hg
  · exact Reach.ok_stop hf

theorem forwardTo_ok (hw : Wired h) (n : Nat) {g : Fwd} (hg : Pharoah.Owned roots (owns h) g.target) :
    (forwardTo n h g).Ok roots h := by
  induction n generalizing g with
  | zero =>
    cases g with
    | errbody x => exact errbodyTo_ok hg []
    | forward x => exact Reach.ok_nil
  | succ n ih =>
    cases g with
    | errbody x => exact errbodyTo_ok hg []
    | forward x =>
      unfold forwardTo
      split
      · next g' hg' => exact (ih (owned_forward hw hg hg')).after hg
      · exact Reach.ok_stop hg

theorem rejectOnTo_ok (hw : Wired h) (n : Nat) (hf : Pharoah.Owned roots (owns h) f) (es : List V) :
    (rejectOnTo n h f es).Ok roots h := by
  unfold rejectOnTo
  split
  · next x hx =>
    obtain ⟨F, hF, hFx⟩ := Option.bind_eq_some_iff.mp hx
    rw [(hw f F hF).reject] at hFx
    cases hFx
  · split
    · next g hg => exact (forwardTo_ok hw n (owned_forward hw hf hg)).after hf
    · exact Reach.ok_stop hf

theorem rejectfunTo_ok (hw : Wired h) (n : Nat) {fn : Funs}
    (hf : Pharoah.Owned roots (owns h) fn.this) (es : List V) :
    (rejectfunTo n h fn es).Ok roots h := by
  unfold rejectfunTo
  split
  · exact rejectOnTo_ok hw n hf es
  · have hs : SameLinks (h.modify fn.this fun F => { F with errored := true }) h :=
      sameLinks_modify h fn.this fun _ => rfl
    exact (rejectOnTo_ok (hs.symm.wired hw) n (hs.owns ▸ hf) es).of_same hs

end

section
variable [Movable V] {roots : Ref → Prop} {h : Heap V} {f : Ref}

theorem moved_same (h : Heap V) (f : Ref) : SameLinks (h.modify f Object.moved) h :=
  sameLinks_modify h f fun _ => rfl

theorem runTo_ok (hw : Wired h) (n : Nat) (hf : Pharoah.Owned roots (owns h) f) (args : List V) :
    (runTo n h f args).Ok roots h := by
  induction n generalizing h f args with
  | zero => exact Reach.ok_nil
  | succ n ih =>
    unfold runTo
    split
    · exact Reach.ok_stop hf
    · next F hF =>
      have next : ∀ g, F.nxtAccept = some g → Pharoah.Owned roots (owns h) g := fun g hg =>
        owned_next hw hf (Option.bind_eq_some_iff.mpr ⟨F, hF, hg⟩)
      split
      · next g _ hg =>
        have hs := moved_same h f
        exact ((ih (hs.symm.wired hw) (hs.owns ▸ next g hg) F.value).of_same hs).after hf
      · next g _ hg => exact (ih hw (next g hg) args).after hf
      · refine ⟨.refl h, fun d hd => (List.mem_singleton.mp hd) ▸ hf, fun c hc g hg => ?_⟩
        rw [List.mem_singleton.mp hc] at hg
        exact bodyNeeds_eq hg ▸ hf
      · exact Reach.ok_stop hf

theorem acceptfunTo_ok (hw : Wired h) (n : Nat) (hf : Pharoah.Owned roots (owns h) f) (vs : List V) :
    (acceptfunTo n h f vs).Ok roots h := by
  unfold acceptfunTo
  split
  · next g hg => exact (runTo_ok hw n (owned_next hw hf hg) vs).after hf
  · exact Reach.ok_stop hf

theorem handle_bodyretTo_ok (hw : Wired h) (n : Nat) (hf : Pharoah.Owned roots (owns h) f) (r : Ret) :
    (handle_bodyretTo n h f r).Ok roots h := by
  unfold handle_bodyretTo
  split
  · exact Reach.ok_stop hf
  · next F hF =>
    have next : ∀ g, F.nxtAccept = some g → Pharoah.Owned roots (owns h) g := fun g hg =>
      owned_next hw hf (Option.bind_eq_some_iff.mpr ⟨F, hF, hg⟩)
    split
    · next g _ hg =>
      split
      · have hs := moved_same h f
        exact ((runTo_ok (hs.symm.wired hw) n (hs.owns ▸ next g hg) F.value).of_same hs).after hf
      · exact (runTo_ok hw n (next g hg) F.value).after hf
    · exact Reach.ok_stop hf

/-- only a `callbody` that has something to do needs its future -/
theorem callbodyTo_ok (hw : Wired h) (n : Nat) (r : Ret)
    (hf : r ≠ .void → Pharoah.Owned roots (owns h) f) (vs : List V) :
    (callbodyTo n h f r vs).Ok roots h := by
  have hs : SameLinks (h.modify f fun F => { F with value := vs }) h :=
    sameLinks_modify h f fun _ => rfl
  unfold callbodyTo
  split
  · exact Reach.ok_nil
  · next hr => exact (handle_bodyretTo_ok (hs.symm.wired hw) n (hs.owns ▸ hf hr) r).of_same hs

theorem runEnd_ok (hw : Wired h) (n : Nat) (b : Body V) (hb : (h[f]?).map Object.kind = some (.body b))
    (hf : ∀ r, bodyNeeds h f = some r → Pharoah.Owned roots (owns h) r) (vs : List V) :
    (runEnd n h f vs b).Ok roots h := by
  unfold bodyNeeds at hf
  rw [hb] at hf
  cases b with
  | accRej code => exact Reach.ok_nil
  | rej r code => exact callbodyTo_ok hw n r (fun _ => hf f rfl) vs
  | noFun r code =>
    refine callbodyTo_ok hw n r (fun hr => ?_) vs
    cases r with
    | multi => exact hf f rfl
    | single => exact hf f rfl
    | void => exact absurd rfl hr

end

/-! ## the condition -/

/-- the `shared_ptr`s other than the `nxt` of `f` -/
def ownsButNxt (h : Heap V) (f p q : Ref) : Prop :=
  ∃ F, h[p]? = some F ∧ (p ≠ f ∧ F.nxt = some q ∨ F.nxtF = some q)

/-- the `shared_ptr`s other than the `nxtF` of `f` -/
def ownsButNxtF (h : Heap V) (f p q : Ref) : Prop :=
  ∃ F, h[p]? = some F ∧ (F.nxt = some q ∨ p ≠ f ∧ F.nxtF = some q)

/-- The handle that `a` drops, or the `nxt` or `nxtF` that it replaces, is not the last reference
to a future that is still needed. -/
def Keeps (s : Program V) : Act V → Prop
  | .drop f => ∀ r ∈ s.needs, Pharoah.Owned (· ∈ s.handles.erase f) (owns s.heap) r
  | .then_ f _ => ∀ r ∈ s.needs, Pharoah.Owned (· ∈ s.handles) (ownsButNxt s.heap f) r
  | .except f => ∀ r ∈ s.needs, Pharoah.Owned (· ∈ s.handles) (ownsButNxtF s.heap f) r
  | _ => True

/-- what holds before every action -/
structure Guarded (s : Program V) : Prop where
  wired : Wired s.heap
  owned : ∀ r ∈ s.needs, s.Owned r

theorem Program.mem_needs {s : Program V} {r : Ref} : r ∈ s.needs ↔
    (∃ t ∈ s.dyn_tq, t.map Funs.this = some r) ∨ ∃ c ∈ s.stack, c.needs s.heap = some r := by
  rw [Program.needs, List.mem_append, List.mem_filterMap, List.mem_filterMap]

theorem Guarded.init : Guarded ({} : Program V) :=
  ⟨fun _ _ hF => (by cases hF), fun _ hr => (by cases hr)⟩

theorem Program.funs_needs {s : Program V} {fn : Funs} (hf : s.funs = some fn) : fn.this ∈ s.needs := by
  obtain ⟨c, hc, hcf⟩ := Option.bind_eq_some_iff.mp hf
  exact mem_needs.mpr (Or.inr ⟨c, List.mem_of_mem_head? hc, Frame.needs_funs hcf⟩)

/-- needed afterwards is only what was needed before -/
theorem needs_of_kinds {s : Program V} {h : Heap V} {hs : List Ref} (hk : KeepsKinds s.heap h) {r : Ref}
    (hr : r ∈ ({ s with heap := h, handles := hs } : Program V).needs) : r ∈ s.needs := by
  obtain ⟨t, ht, htr⟩ | ⟨c, hc, hcr⟩ := Program.mem_needs.mp hr
  · exact Program.mem_needs.mpr (Or.inl ⟨t, ht, htr⟩)
  · exact Program.mem_needs.mpr (Or.inr ⟨c, hc, Frame.needs_mono hk hcr⟩)

theorem SameLinks.keepsKinds {h h' : Heap V} (hs : SameLinks h h') : KeepsKinds h h' := by
  intro f k hk
  obtain ⟨F, hF, hFk⟩ := Option.map_eq_some_iff.mp hk
  obtain ⟨F', hF', hl⟩ := hs.get hF
  rw [hF']
  exact congrArg some ((links_eq hl).1.trans hFk)

/-! ## one action -/

section
variable {s : Program V}

/-- a new future takes nothing from the others -/
theorem Guarded.push (hg : Guarded s) {F : Object V} (hF : F.Wired) : Guarded (s.create (s.heap ++ [F])) := by
  refine ⟨hg.wired.push hF, fun r hr => ?_⟩
  have hn := hg.owned r (needs_of_kinds (keepsKinds_push s.heap F) hr)
  exact hn.mono (fun q hq => List.mem_cons_of_mem _ hq)
    (fun p q ⟨G, hG, hq⟩ => ⟨G, getElem?_push.mpr (Or.inl hG), hq⟩)

/-- `then` takes the old `nxt` of its future away -/
theorem Guarded.then_ (hg : Guarded s) (f : Ref) (b : Body V) (hk : Keeps s (.then_ f b)) :
    Guarded (s.create (then_ s.heap f b)) := by
  refine ⟨hg.wired.then_ f b, fun r hr => ?_⟩
  have hkinds : KeepsKinds s.heap (Future.then_ s.heap f b) := keepsKinds_then_ s.heap f b
  refine (hk r (needs_of_kinds hkinds hr)).mono (fun q hq => List.mem_cons_of_mem _ hq) ?_
  intro p q ⟨F, hF, hq⟩
  have hp : p < s.heap.length := (List.getElem?_eq_some_iff.mp hF).1
  by_cases hpf : f = p
  · subst hpf
    refine ⟨_, get_then_self b hF, Or.inr ?_⟩
    obtain ⟨hne, -⟩ | hx := hq
    · exact absurd rfl hne
    · exact hx
  · refine ⟨F, (get_then_other b hp hpf).trans hF, ?_⟩
    exact hq.imp And.right id

/-- `except` takes the old `nxtF` of its future away -/
theorem Guarded.except (hg : Guarded s) (f : Ref) (hk : Keeps s (.except f)) :
    Guarded { s with heap := except s.heap f } := by
  refine ⟨hg.wired.except f, fun r hr => ?_⟩
  have hkinds : KeepsKinds s.heap (Future.except s.heap f) := keepsKinds_except s.heap f
  refine (hk r (needs_of_kinds hkinds hr)).mono (fun q hq => hq) ?_
  intro p q ⟨F, hF, hq⟩
  have hp : p < s.heap.length := (List.getElem?_eq_some_iff.mp hF).1
  by_cases hpf : f = p
  · subst hpf
    refine ⟨_, get_except_self hF, Or.inl ?_⟩
    obtain hn | ⟨hne, -⟩ := hq
    · exact hn
    · exact absurd rfl hne
  · refine ⟨F, (get_except_other hp hpf).trans hF, ?_⟩
    exact hq.imp id And.right

/-- more handles, and code that needs nothing new -/
theorem Guarded.of_less {t : Program V} (hg : Guarded s) (hh : t.heap = s.heap)
    (hr : ∀ r ∈ s.handles, r ∈ t.handles) (hn : ∀ r ∈ t.needs, r ∈ s.needs) : Guarded t := by
  refine ⟨hh ▸ hg.wired, fun r hrn => ?_⟩
  exact (hg.owned r (hn r hrn)).mono hr (fun p q hpq => hh ▸ hpq)

theorem Guarded.reach (hg : Guarded s) {r : Reach V} (hr : r.Ok (· ∈ s.handles) s.heap) :
    Guarded (s.reach r).2 := by
  refine ⟨hr.links.symm.wired hg.wired, fun g hgn => ?_⟩
  have howns : owns s.heap = owns r.heap := hr.links.symm.owns
  show Pharoah.Owned (· ∈ s.handles) (owns r.heap) g
  obtain ⟨t, ht, htg⟩ | ⟨c, hc, hcg⟩ := Program.mem_needs.mp hgn
  · exact howns ▸ hg.owned g (Program.mem_needs.mpr (Or.inl ⟨t, ht, htg⟩))
  · obtain hc | hc := List.mem_append.mp hc
    · exact howns ▸ hr.calls c hc g hcg
    · have hcg' := Frame.needs_mono hr.links.symm.keepsKinds hcg
      exact howns ▸ hg.owned g (Program.mem_needs.mpr (Or.inr ⟨c, hc, hcg'⟩))

/-- a closure goes to the queue with functions that running code has, or with none -/
theorem Guarded.queue (hg : Guarded s) {t : Option Funs} (ht : ∀ fn, t = some fn → s.funs = some fn) :
    Guarded { s with dyn_tq := s.dyn_tq ++ [t] } := by
  refine hg.of_less rfl (fun r hr => hr) fun r hr => ?_
  obtain ⟨u, hu, hur⟩ | hc := Program.mem_needs.mp hr
  · obtain hu | hu := List.mem_append.mp hu
    · exact Program.mem_needs.mpr (Or.inl ⟨u, hu, hur⟩)
    · rw [List.mem_singleton.mp hu] at hur
      obtain ⟨fn, hfn, rfl⟩ := Option.map_eq_some_iff.mp hur
      exact Program.funs_needs (ht fn hfn)
  · exact Program.mem_needs.mpr (Or.inr hc)

theorem Guarded.pop (hg : Guarded s) {c : Frame V} {rest : List (Frame V)} (hst : s.stack = c :: rest)
    {q : List (Option Funs)} (hq : ∀ t ∈ q, t ∈ s.dyn_tq) :
    Guarded { s with dyn_tq := q, stack := rest } := by
  refine hg.of_less rfl (fun r hr => hr) fun r hr => ?_
  obtain ⟨t, ht, htr⟩ | ⟨d, hd, hdr⟩ := Program.mem_needs.mp hr
  · exact Program.mem_needs.mpr (Or.inl ⟨t, hq t ht, htr⟩)
  · exact Program.mem_needs.mpr (Or.inr ⟨d, hst ▸ List.mem_cons_of_mem _ hd, hdr⟩)

/-- the front of the queue stays there while it runs -/
theorem Guarded.fire (hg : Guarded s) {t : Option Funs} {q : List (Option Funs)}
    (hq : s.dyn_tq = t :: q) : Guarded { s with stack := .task t :: s.stack } := by
  refine hg.of_less rfl (fun r hr => hr) fun r hr => ?_
  obtain hu | ⟨c, hc, hcr⟩ := Program.mem_needs.mp hr
  · exact Program.mem_needs.mpr (Or.inl hu)
  · obtain rfl | hc := List.mem_cons.mp hc
    · exact Program.mem_needs.mpr (Or.inl ⟨t, hq ▸ List.mem_cons_self .., hcr⟩)
    · exact Program.mem_needs.mpr (Or.inr ⟨c, hc, hcr⟩)

variable [Movable V]

/-- the end of the body of `f` -/
theorem Guarded.runEnd_ok (hg : Guarded s) {f : Ref} {args : List V} {rest : List (Frame V)}
    (hst : s.stack = .call (.body f args) :: rest) {b : Body V}
    (hb : (s.heap[f]?).map Object.kind = some (.body b)) (vs : List V) :
    (runEnd s.fuel s.heap f vs b).Ok (· ∈ s.handles) s.heap := by
  apply Future.runEnd_ok hg.wired _ b hb
  intro r hr
  apply hg.owned r
  have hc : Frame.needs s.heap (.call (.body f args)) = some r := hr
  exact Program.mem_needs.mpr (Or.inr ⟨_, hst ▸ List.mem_cons_self .., hc⟩)

/-- **One action** reads owned futures only, and with `Keeps` the needed ones stay owned. -/
theorem Guarded.act (hg : Guarded s) {a : Act V} {ds : List Ref} {s' : Program V}
    (ha : act s a = some (ds, s')) : (∀ d ∈ ds, s.Owned d) ∧ (Keeps s a → Guarded s') := by
  have nothing : ∀ d ∈ ([] : List Ref), s.Owned d := fun d hd => (by cases hd)
  have one : ∀ f, f ∈ s.handles → ∀ d ∈ [f], s.Owned d := fun f hf d hd =>
    (List.mem_singleton.mp hd) ▸ Owned.root hf
  have funs : ∀ fn, s.funs = some fn → s.Owned fn.this := fun fn hf =>
    hg.owned _ (Program.funs_needs hf)
  have reach : ∀ r : Reach V, r.Ok (· ∈ s.handles) s.heap →
      (∀ d ∈ r.derefs, s.Owned d) ∧ (Keeps s a → Guarded (s.reach r).2) := fun r hr =>
    ⟨hr.derefs, fun _ => hg.reach hr⟩
  cases act_cases ha with
  | bound vs => exact ⟨nothing, fun _ => hg.push (Object.wired_new _ _)⟩
  | unbound => exact ⟨nothing, fun _ => hg.push (Object.wired_new _ [])⟩
  | then_ f b hf => exact ⟨one f hf, fun hk => hg.then_ f b hk⟩
  | except f hf => exact ⟨one f hf, fun hk => hg.except f hk⟩
  | copy f hf =>
    exact ⟨nothing, fun _ => hg.of_less rfl (fun r hr => List.mem_cons_of_mem _ hr) fun r hr => hr⟩
  | drop f hf => exact ⟨nothing, fun hk => ⟨hg.wired, hk⟩⟩
  | run f args hf => exact reach _ (runTo_ok hg.wired _ (Owned.root hf) args)
  | accept f vs hfn => exact reach _ (acceptfunTo_ok hg.wired _ (funs _ hfn) vs)
  | reject fn es hfn => exact reach _ (rejectfunTo_ok hg.wired _ (funs _ hfn) es)
  | keep fn hfn => exact ⟨nothing, fun _ => hg.queue fun fn' hfn' => hfn.trans hfn'⟩
  | add => exact ⟨nothing, fun _ => hg.queue fun fn hfn => (by cases hfn)⟩
  | body f args vs b rest hst hb =>
    have hr := hg.runEnd_ok hst hb vs
    exact ⟨hr.derefs, fun _ => (hg.pop hst fun t ht => ht).reach hr⟩
  | handler x args vs rest hst => exact ⟨nothing, fun _ => hg.pop hst fun t ht => ht⟩
  | task fn vs rest hst => exact ⟨nothing, fun _ => hg.pop hst fun t ht => List.mem_of_mem_tail ht⟩
  | idle hq => exact ⟨nothing, fun _ => hg⟩
  | fire t q hq hn => exact ⟨nothing, fun _ => hg.fire hq⟩

theorem Guarded.step (hg : Guarded s) {a : Act V} {s' : Program V} (hk : Keeps s a)
    (hs : step s a = some s') : Guarded s' := by
  obtain ⟨⟨ds, t⟩, ha, rfl⟩ := Option.map_eq_some_iff.mp hs
  exact (hg.act ha).2 hk

theorem Guarded.derefs (hg : Guarded s) (a : Act V) : ∀ f ∈ derefs s a, s.Owned f := by
  intro f hf
  unfold Future.derefs at hf
  cases ha : Future.act s a with
  | none => rw [ha] at hf; cases hf
  | some r =>
    rw [ha] at hf
    exact (hg.act ha).1 f hf

end

/-! ## every run -/

end
end Future
end Pharoah
