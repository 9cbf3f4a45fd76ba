import Pharoah.Future.Errored

/-!
# Futures: the five styles of a body

The same stage written in different styles: `StageFun V k` is a pure function from the inputs of
a stage to `k` values or to a rejection, and `Body.Writes g b` says that the body `b` is a way to
write `g` (any style whose return type can carry `k` values, and one that hands out a reject
function unless `g` never rejects).

`styles_agree_iff`: **all ways to write one stage of a chain show the same first run exactly when
the stage is the last one, or what reaches it is `Harmless`**: for `k = 0` (a `void` body does not
run the next future) that no input is accepted, otherwise (`errored` is never reset) that none is
accepted after one was rejected.  The second part says which inputs reach it.
-/

namespace Pharoah
namespace Future

open Prog

section
variable {V : Type}

/-! ## ways to write a stage -/

structure StageFun (V : Type) (k : Nat) where
  code : List V → Settle V
  arity : ∀ {args vs : List V}, code args = .accept vs → vs.length = k

def StageFun.Rejects {k : Nat} (g : StageFun V k) (args : List V) : Prop :=
  ∃ es, g.code args = .reject es

/-- the return type can carry `k` values -/
def Ret.Fits (k : Nat) : Ret → Prop
  | .multi => 1 ≤ k
  | .single => k = 1
  | .void => k = 0

def Body.Fits (k : Nat) : Body V → Prop
  | .accRej _ => True
  | .rej r _ => r.Fits k
  | .noFun r _ => r.Fits k

/-- A `REJ` body that rejects still returns a value; it may be any. -/
structure Body.Writes {k : Nat} (g : StageFun V k) (b : Body V) : Prop where
  settles : ∀ args, b.settle? args = some (g.code args)
  fits : b.Fits k

/-- the stage written with both functions -/
def StageFun.accRej {k : Nat} (g : StageFun V k) : Body V :=
  .accRej fun args => match g.code args with
    | .accept vs => [.accept rfl vs]
    | .reject es => [.reject es]

/-- the stage written with a reject function, returning the values or `junk` -/
def StageFun.rej {k : Nat} (g : StageFun V k) (r : Ret) (junk : List V) : Body V :=
  .rej r fun args => match g.code args with
    | .accept vs => ([], vs)
    | .reject es => ([.reject es], junk)

theorem StageFun.accRej_writes {k : Nat} (g : StageFun V k) : g.accRej.Writes g := by
  refine ⟨fun args => ?_, trivial⟩
  cases hg : g.code args with
  | accept vs => simp [StageFun.accRej, Body.settle?, hg]
  | reject es => simp [StageFun.accRej, Body.settle?, hg]

theorem StageFun.rej_writes {k : Nat} (g : StageFun V k) {r : Ret} (hr : r.Fits k) (junk : List V) :
    (g.rej r junk).Writes g := by
  refine ⟨fun args => ?_, hr⟩
  cases hg : g.code args with
  | accept vs => simp [StageFun.rej, Body.settle?, hg]
  | reject es => simp [StageFun.rej, Body.settle?, hg]

/-! ## one body of a chain is replaced -/

def setBody (h : Heap V) (f : Ref) (b : Body V) : Heap V :=
  h.modify f fun F => { F with kind := .body b }

theorem setBody_append {h : Heap V} {f : Ref} (hf : f < h.length) (F : Object V) (b : Body V) :
    setBody (h ++ [F]) f b = setBody h f b ++ [F] := by
  unfold setBody
  apply List.ext_getElem?
  intro r
  simp only [List.getElem?_modify, List.getElem?_append, List.length_modify]
  by_cases hr : r < h.length
  · simp [hr]
  · have hne : f ≠ r := fun e => hr (e ▸ hf)
    simp [hr, hne]

theorem setBody_new (h : Heap V) (F : Object V) (b : Body V) :
    setBody (h ++ [F]) h.length b = h ++ [{ F with kind := .body b }] := by
  unfold setBody
  apply List.ext_getElem?
  intro r
  simp only [List.getElem?_modify, List.getElem?_append]
  by_cases hr : r < h.length
  · have hne : h.length ≠ r := by omega
    simp [hr, hne]
  · by_cases he : h.length = r
    · subst he; simp
    · have h1 : r - h.length ≠ 0 := by omega
      simp [hr, he, h1]

theorem setBody_modify (h : Heap V) (f g : Ref) (b : Body V) (u : Object V → Object V)
    (hu : ∀ F, u { F with kind := .body b } = { u F with kind := .body b }) :
    setBody (h.modify g u) f b = (setBody h f b).modify g u := by
  unfold setBody
  apply List.ext_getElem?
  intro r
  simp only [List.getElem?_modify]
  cases h[r]? with
  | none => rfl
  | some F =>
    by_cases h1 : f = r
    · by_cases h2 : g = r
      · simp [h1, h2, hu]
      · simp [h1, h2]
    · by_cases h2 : g = r
      · simp [h1, h2]
      · simp [h1, h2]

@[simp] theorem length_setBody (h : Heap V) (f : Ref) (b : Body V) :
    (setBody h f b).length = h.length := by simp [setBody]

theorem setBody_then_ {h : Heap V} {f : Ref} (hf : f < h.length) (b : Body V) (g : Ref)
    (b' : Body V) : setBody (then_ h g b') f b = then_ (setBody h f b) g b' := by
  unfold then_
  rw [setBody_append (by simpa using hf)]
  rw [setBody_modify _ _ _ _ _ (fun F => rfl)]
  simp

theorem setBody_then_new (h : Heap V) (g : Ref) (b b' : Body V) :
    setBody (then_ h g b') h.length b = then_ h g b := by
  unfold then_
  have := setBody_new (h.modify g fun F =>
    { F with nxtAccept := some (bindaccept h.length)
             nxtForward := some (bindforward (.body b') h.length)
             nxt := some h.length }) { kind := .body b' } b
  rw [List.length_modify] at this
  exact this

theorem setBody_except {h : Heap V} {f : Ref} (hf : f < h.length) (b : Body V) (g : Ref) :
    setBody (except h g) f b = except (setBody h f b) g := by
  unfold except
  rw [setBody_append (by simpa using hf)]
  rw [setBody_modify _ _ _ _ _ (fun F => rfl)]
  simp

/-- The same calls, one of them with another body, build the same chains. -/
theorem Built.setBody {h : Heap V} {cs : List (List Ref)} (hb : Built Anywhere h cs) {f : Ref}
    {c : List Ref} (hc : c ∈ cs) (hf : f ∈ c.tail) (b : Body V) :
    Built Anywhere (setBody h f b) cs := by
  induction hb generalizing c with
  | empty => exact absurd hc (by simp)
  | @bound h cs vs hb ih =>
    rcases List.mem_cons.mp hc with rfl | hc
    · exact absurd hf (by simp)
    · have hlt : f < h.length :=
        hb.wf.lt (List.mem_flatten.mpr ⟨c, hc, List.mem_of_mem_tail hf⟩)
      have h1 := Built.bound vs (ih hc hf)
      rw [length_setBody] at h1
      rw [Future.bound, setBody_append hlt]
      exact h1
  | @unbound h cs hb ih =>
    rcases List.mem_cons.mp hc with rfl | hc
    · exact absurd hf (by simp)
    · have hlt : f < h.length :=
        hb.wf.lt (List.mem_flatten.mpr ⟨c, hc, List.mem_of_mem_tail hf⟩)
      have h1 := Built.unbound (ih hc hf)
      rw [length_setBody] at h1
      rw [Future.unbound, setBody_append hlt]
      exact h1
  | @then_ h cs ds d g b' hb hok ih =>
    by_cases hfn : f = h.length
    · subst hfn
      rw [setBody_then_new]
      exact Built.then_ b hb trivial
    · obtain ⟨c', hc', hf'⟩ : ∃ c' ∈ cs ++ (d ++ [g]) :: ds, f ∈ c'.tail := by
        simp only [List.mem_append, List.mem_cons] at hc
        rcases hc with hc | rfl | hc
        · exact ⟨c, by simp [hc], hf⟩
        · refine ⟨d ++ [g], by simp, ?_⟩
          cases d with
          | nil => exact absurd (by simpa using hf) hfn
          | cons a d =>
            simp only [List.cons_append, List.tail_cons, List.mem_append, List.mem_cons,
              List.not_mem_nil, or_false] at hf ⊢
            tauto
        · exact ⟨c, by simp [hc], hf⟩
      have hlt : f < h.length :=
        hb.wf.lt (List.mem_flatten.mpr ⟨c', hc', List.mem_of_mem_tail hf'⟩)
      have h1 := Built.then_ b' (ih hc' hf') trivial
      rw [length_setBody] at h1
      rw [setBody_then_ hlt]
      exact h1
  | @except h cs g hb hg ih =>
    have hlt : f < h.length :=
      hb.wf.lt (List.mem_flatten.mpr ⟨c, hc, List.mem_of_mem_tail hf⟩)
    rw [setBody_except hlt]
    exact (ih hc hf).except hg

theorem stage?_setBody_ne {h : Heap V} {f g : Ref} (b : Body V) (hne : f ≠ g) :
    stage? (Future.setBody h f b) g = stage? h g := by
  unfold stage? Future.setBody
  rw [List.getElem?_modify_ne _ _ hne]

/-- the chain of the changed heap -/
theorem chain_setBody {ok : Heap V → Ref → Prop} {h : Heap V} {cs : List (List Ref)}
    (hb : Built ok h cs) {hd f : Ref} {pre post : List Ref} (hc : hd :: (pre ++ f :: post) ∈ cs) :
    ∃ y x, ∀ b, chain (setBody h f b) (pre ++ f :: post)
      = chain h pre ++ ⟨f, b, y, x⟩ :: chain h post := by
  obtain ⟨F, b₀, hF, hk⟩ := hb.kinds hc f (by simp)
  have hnd := (List.nodup_cons.mp (hb.nodup hc)).2
  rw [List.nodup_append] at hnd
  obtain ⟨-, h2, h3⟩ := hnd
  have hpost : f ∉ post := (List.nodup_cons.mp h2).1
  have hpre : f ∉ pre := fun hf => h3 f hf f (by simp) rfl
  have same : ∀ (fs : List Ref) (b : Body V), f ∉ fs → chain (setBody h f b) fs = chain h fs := by
    intro fs b hfs
    unfold chain
    apply List.filterMap_congr
    intro g hg
    exact stage?_setBody_ne b (fun e => hfs (e ▸ hg))
  refine ⟨slotOf F.nxtForward, F.nxtF, fun b => ?_⟩
  have hF' : (setBody h f b)[f]? = some { F with kind := .body b } := by
    unfold setBody
    rw [List.getElem?_modify_eq, hF]
    rfl
  have h4 : chain (setBody h f b) (pre ++ f :: post)
      = chain (setBody h f b) pre ++ chain (setBody h f b) (f :: post) := by
    unfold chain
    rw [List.filterMap_append]
  rw [h4, chain_cons hF' rfl, same pre b hpre, same post b hpost]

/-! ## what may reach a stage -/

/-- what may reach a stage so that the way it is written does not matter -/
def Harmless {k : Nat} (g : StageFun V k) (ins : List (List V)) : Prop :=
  if k = 0 then ∀ a ∈ ins, g.Rejects a else ins.Pairwise fun a a' => g.Rejects a → g.Rejects a'

theorem Harmless.prefix {k : Nat} {g : StageFun V k} {l l' : List (List V)}
    (h : Harmless g (l ++ l')) : Harmless g l := by
  unfold Harmless at h ⊢
  split
  · next hk =>
    rw [if_pos hk] at h
    exact fun a ha => h a (List.mem_append_left _ ha)
  · next hk =>
    rw [if_neg hk] at h
    exact (List.pairwise_append.mp h).1

/-- after a harmless list, an accepted input comes first of its kind -/
theorem Harmless.accepted {k : Nat} {g : StageFun V k} {l l' : List (List V)} {a vs : List V}
    (h : Harmless g (l ++ a :: l')) (ha : g.code a = .accept vs) :
    k ≠ 0 ∧ ∀ a' ∈ l, ¬ g.Rejects a' := by
  have hna : ¬ g.Rejects a := by rintro ⟨es, he⟩; rw [ha] at he; cases he
  unfold Harmless at h
  split at h
  · exact absurd (h a (by simp)) hna
  · next hk =>
    refine ⟨hk, fun a' ha' hr => ?_⟩
    exact hna ((List.pairwise_append.mp h).2.2 a' ha' a (List.mem_cons_self ..) hr)

/-! ## the same stage, written with both functions and in another way -/

variable {k : Nat} (g : StageFun V k) (f : Ref)

/-- `t` with the stage written with both functions, `t'` in some way -/
structure Styled (t t' : Trail V) : Prop where
  trace : t'.trace = t.trace
  dyn_tq : t'.dyn_tq = t.dyn_tq
  others : ∀ u, u ≠ f → t'.errored u = t.errored u
  errored : t.errored f = false
  rejected : t'.errored f = true → ∃ a ∈ entered f t.trace, g.Rejects a

/-- an input that matters has reached the stage -/
def Harmed (t : Trail V) : Prop := ¬ Harmless g (entered f t.trace)

variable {g f}

theorem Harmed.grows {t t' : Trail V} (h : Grows t t') (hb : Harmed g f t) : Harmed g f t' := by
  obtain ⟨l, hl, -⟩ := h
  intro hh
  rw [hl, entered_append] at hh
  exact hb hh.prefix

theorem Styled.alike {t t₁ t' t₁' : Trail V} (h : Styled g f t t') {u : Ref}
    (ha : Alike u t t₁) (ha' : Alike u t' t₁') : Styled g f t₁ t₁' := by
  refine ⟨?_, ?_, fun u hu => ?_, ?_, fun he => ?_⟩
  · rw [ha.trace, ha'.trace, h.trace]
  · rw [ha.dyn_tq, ha'.dyn_tq, h.dyn_tq]
  · rw [ha.errored, ha'.errored, h.others u hu]
  · rw [ha.errored, h.errored]
  · rw [ha.trace]
    exact h.rejected (by rwa [ha'.errored] at he)

theorem Styled.add {t t' : Trail V} (h : Styled g f t t') (k : Task V) :
    Styled g f (t.add k) (t'.add k) :=
  ⟨h.trace, congrArg (· ++ [k]) h.dyn_tq, h.others, h.errored, h.rejected⟩

theorem Styled.emit {t t' : Trail V} (h : Styled g f t t') (e : Event V) :
    Styled g f (t.emit e) (t'.emit e) := by
  refine ⟨congrArg (· ++ [e]) h.trace, h.dyn_tq, h.others, h.errored, fun he => ?_⟩
  obtain ⟨a, ha, hr⟩ := h.rejected he
  refine ⟨a, ?_, hr⟩
  show a ∈ entered f (t.trace ++ [e])
  rw [entered_append]
  exact List.mem_append_left _ ha

theorem Styled.setErrored {t t' : Trail V} (h : Styled g f t t') {u : Ref} (hu : u ≠ f) :
    Styled g f (t.setErrored u) (t'.setErrored u) := by
  refine ⟨h.trace, h.dyn_tq, fun v hv => ?_, ?_, fun he => h.rejected ?_⟩
  · show Function.update t'.errored u true v = Function.update t.errored u true v
    by_cases e : v = u
    · subst e; simp
    · rw [Function.update_of_ne e, Function.update_of_ne e]
      exact h.others v hv
  · show Function.update t.errored u true f = false
    rw [Function.update_of_ne (Ne.symm hu)]
    exact h.errored
  · have he' : Function.update t'.errored u true f = true := he
    rwa [Function.update_of_ne (Ne.symm hu)] at he'

variable [Movable V]

section
variable {B : Trail V → Prop} (hB : ∀ t t', Grows t t' → B t → B t')
include hB

/-- one stage that is written alike, with what comes after it -/
theorem styled_stage {s : Stage V} {rest rest' : Chain V} (hs : s.this ≠ f)
    (hlast : rest'.isEmpty = rest.isEmpty) (hcaught : Chain.caught rest' = Chain.caught rest)
    (hnext : ∀ vs, SimUnless B (Styled g f) (Chain.run rest vs) (Chain.run rest' vs))
    (args : List V) :
    SimUnless B (Styled g f) (Chain.run (s :: rest) args) (Chain.run (s :: rest') args) := by
  refine Chain.stage_simUnless hB (fun _ _ _ _ _ h ha ha' => h.alike ha ha') rfl rfl hlast hnext
    (fun b _ => (Chain.reject_sim rfl rfl ?_ (fun _ t t' h => h.setErrored hs)
      (fun t t' x h => h.emit _)).unless)
    (fun t t' k h => h.add k) (fun t t' h he => by rw [h.others _ hs]; exact he)
    (fun _ _ t t' h he he' => ?_) args (fun t t' h => h.emit _)
  · simp only [Chain.caught, hcaught]
  · rw [h.others _ hs, he] at he'
    cases he'

theorem styled_run {c : Chain V} (hf : f ∉ c.map Stage.this) (args : List V) :
    SimUnless B (Styled g f) (Chain.run c args) (Chain.run c args) := by
  induction c generalizing args with
  | nil => exact (Sim.pure ()).unless
  | cons s rest ih =>
    rw [List.map_cons, List.mem_cons, not_or] at hf
    exact styled_stage hB (Ne.symm hf.1) rfl rfl (fun vs => ih hf.2 vs) args

variable {b : Body V} (hb : b.Writes g) {y : Slot} {x : Option Ref} {post : Chain V}
  (hf : f ∉ post.map Stage.this) (hbad : post ≠ [] → ∀ t, Harmed g f t → B t)
include hb hf hbad

/-- the stage itself accepts -/
theorem styled_accept {args vs : List V} (hg : g.code args = .accept vs) {t t' : Trail V}
    (h : Styled g f t t') (hn : ¬ B (final (Chain.run post vs (t.emit (.body f args))))) :
    Rel (Styled g f) (Chain.run post vs (t.emit (.body f args)))
      (Chain.runBody (Chain.run post) (⟨f, b, y, x⟩ :: post) post.isEmpty f args b
        (t'.emit (.body f args))) := by
  have h0 := h.emit (.body f args)
  -- a style that returns the values
  have ret : ∀ r : Ret, r.Fits k → Rel (Styled g f) (Chain.run post vs (t.emit (.body f args)))
      (Chain.callbody (Chain.run post) post.isEmpty f r vs (t'.emit (.body f args))) := by
    intro r hr
    by_cases hp : post = []
    · subst hp
      obtain ⟨t₁, e, hA⟩ := Chain.callbody_stop (Chain.run ([] : Chain V)) true f r vs
        (t := t'.emit (.body f args)) (.inr (.inr rfl))
      rw [show ([] : Chain V).isEmpty = true from rfl, e]
      exact ⟨rfl, h0.alike (.refl f _) hA⟩
    · have hl : post.isEmpty = false := by simpa using hp
      have hh : Harmless g (entered f t.trace ++ [args]) := by
        by_contra hh
        have hb0 : B (t.emit (.body f args)) := by
          refine hbad hp _ ?_
          show ¬ Harmless g (entered f (t.trace ++ [.body f args]))
          rw [entered_append, entered_self]
          exact hh
        exact hn (hB _ _ (Chain.run_grows post vs _) hb0)
      obtain ⟨hk, hnone⟩ := hh.accepted hg
      have hrv : r ≠ .void := fun e => hk (by subst e; exact hr)
      have he : t'.errored f = false := by
        cases he : t'.errored f with
        | false => rfl
        | true =>
          obtain ⟨a, ha, hr⟩ := h.rejected he
          exact absurd hr (hnone a ha)
      obtain ⟨t₁, e, hA⟩ := Chain.callbody_go (Chain.run post) hrv vs
        (t := t'.emit (.body f args)) he
      rw [hl, e]
      exact styled_run hB hf vs _ _ (h0.alike (.refl f _) hA) hn
  have hset := hb.settles args
  rw [hg] at hset
  cases Body.settle_cases hset with
  | accept code _ hcode =>
    rw [Chain.runBody, hcode, Chain.exec_accept]
    exact styled_run hB hf vs _ _ h0 hn
  | ret r code hcode =>
    rw [Chain.runBody, hcode]
    exact ret r hb.fits
  | noFun r code => exact ret r hb.fits

omit hB hf hbad in
/-- the stage itself rejects -/
theorem styled_reject {args es : List V} (hg : g.code args = .reject es) {t t' : Trail V}
    (h : Styled g f t t') :
    Rel (Styled g f)
      (Chain.reject (⟨f, g.accRej, y, x⟩ :: post) false (t.emit (.body f args)))
      (Chain.runBody (Chain.run post) (⟨f, b, y, x⟩ :: post) post.isEmpty f args b
        (t'.emit (.body f args))) := by
  have h0 := h.emit (.body f args)
  have hrej : Sim (Styled g f) (Chain.reject (⟨f, g.accRej, y, x⟩ :: post) false)
      (Chain.reject (⟨f, b, y, x⟩ :: post) false) :=
    Chain.reject_sim rfl rfl (by simp only [Chain.caught]) (by simp) (fun t t' x h => h.emit _)
  have hset := hb.settles args
  rw [hg] at hset
  cases Body.settle_cases hset with
  | reject code _ hcode =>
    rw [Chain.runBody, hcode, Chain.exec_reject]
    exact hrej _ _ h0
  | rejectRet r code _ hcode =>
    have h1 : Styled g f (t.emit (.body f args)) ((t'.emit (.body f args)).setErrored f) := by
      refine ⟨h0.trace, h0.dyn_tq, fun u hu => ?_, h0.errored, fun _ => ⟨args, ?_, es, hg⟩⟩
      · exact (Function.update_of_ne hu ..).trans (h0.others u hu)
      · show args ∈ entered f (t.trace ++ [.body f args])
        simp
    have hx : Chain.exec (Chain.run post) (⟨f, .rej r code, y, x⟩ :: post) f
        ([.reject es] : List (Stmt V false)) (t'.emit (.body f args))
        = Chain.reject (⟨f, .rej r code, y, x⟩ :: post) false
            ((t'.emit (.body f args)).setErrored f) := Chain.exec_reject ..
    have h2 := hrej _ _ h1
    have h3 := Chain.reject_moves (T := fun t t' : Trail V => t'.errored f = t.errored f)
      (fun _ => rfl) (fun _ _ _ a b => b.trans a) (s := ⟨f, .rej r code, y, x⟩) post false
      (by simp) (fun _ _ => rfl) ((t'.emit (.body f args)).setErrored f)
    rw [Chain.runBody, hcode]
    rw [← hx] at h2 h3
    generalize Chain.reject (⟨f, g.accRej, y, x⟩ :: post) false (t.emit (.body f args)) = res
      at h2
    cases hy : Chain.exec (Chain.run post) (⟨f, .rej r code, y, x⟩ :: post) f
        ([.reject es] : List (Stmt V false)) (t'.emit (.body f args)) with
    | ok u t₁ =>
      rw [hy] at h2 h3
      rw [bind_ok hy]
      obtain ⟨t₂, e, hA⟩ := Chain.callbody_stop (Chain.run post) post.isEmpty f r
        (code args).2 (t := t₁) (.inr (.inl (h3.trans (Function.update_self ..))))
      rw [e]
      cases res with
      | ok u t₀ => exact ⟨rfl, h2.2.alike (.refl f _) hA⟩
      | error e t₀ => exact h2.elim
    | error e t₁ =>
      rw [hy] at h2
      rw [bind_error hy]
      exact h2

/-- the stage itself -/
theorem styled_written (args : List V) :
    SimUnless B (Styled g f) (Chain.run (⟨f, g.accRej, y, x⟩ :: post) args)
      (Chain.run (⟨f, b, y, x⟩ :: post) args) := by
  intro t t' h hn
  unfold Chain.run at hn ⊢
  rw [bind_ok (modify_apply _ t)] at hn ⊢
  rw [bind_ok (modify_apply _ t')]
  cases hg : g.code args with
  | accept vs =>
    have hx : Chain.runBody (Chain.run post) (⟨f, g.accRej, y, x⟩ :: post) post.isEmpty f args
        g.accRej (t.emit (.body f args)) = Chain.run post vs (t.emit (.body f args)) := by
      rw [StageFun.accRej, Chain.runBody, hg]
      exact Chain.exec_accept ..
    simp only [hx] at hn ⊢
    exact styled_accept hB hb hf hbad hg h hn
  | reject es =>
    have hx : Chain.runBody (Chain.run post) (⟨f, g.accRej, y, x⟩ :: post) post.isEmpty f args
        g.accRej (t.emit (.body f args))
        = Chain.reject (⟨f, g.accRej, y, x⟩ :: post) false (t.emit (.body f args)) := by
      simp only [StageFun.accRej, Chain.runBody, hg]
      exact Chain.exec_reject ..
    simp only [hx] at hn ⊢
    exact styled_reject hb hg h

/-- the whole chain -/
theorem styled_chain {pre : Chain V} (hpre : f ∉ pre.map Stage.this) (args : List V) :
    SimUnless B (Styled g f) (Chain.run (pre ++ ⟨f, g.accRej, y, x⟩ :: post) args)
      (Chain.run (pre ++ ⟨f, b, y, x⟩ :: post) args) := by
  induction pre generalizing args with
  | nil => exact styled_written hB hb hf hbad args
  | cons s pre ih =>
    rw [List.map_cons, List.mem_cons, not_or] at hpre
    refine styled_stage hB (Ne.symm hpre.1) ?_ ?_ (fun vs => ih hpre.2 vs) args
    · cases pre <;> rfl
    · clear ih hpre
      induction pre with
      | nil => simp only [List.nil_append, Chain.caught]
      | cons s pre ih => simp only [List.cons_append, Chain.caught, ih]

end

/-! ## what gives a style away -/

section
omit [Movable V]
variable (g f) (p : Ref)

/-- an accepted input of `f` is followed by the call of the body of `p` -/
def Follows (t t' : Trail V) : Prop :=
  ∃ l, t'.trace = t.trace ++ l ∧ ∀ l₁ a l₂ vs, l = l₁ ++ .body f a :: l₂ →
    g.code a = .accept vs → ∃ l₃, l₂ = .body p vs :: l₃

variable {g f p}

theorem Follows.of_eq {t t' : Trail V} (h : t'.trace = t.trace) : Follows g f p t t' :=
  ⟨[], by simp [h], fun l₁ a l₂ vs hl => by simp at hl⟩

theorem Follows.emit {e : Event V} (he : ∀ a, e ≠ .body f a) (t : Trail V) :
    Follows g f p t (t.emit e) := by
  refine ⟨[e], rfl, fun l₁ a l₂ vs hl => ?_⟩
  rcases List.cons_eq_append_iff.mp hl with ⟨-, h⟩ | ⟨m, -, h⟩
  · obtain ⟨h1, -⟩ := List.cons_eq_cons.mp h
    exact absurd h1.symm (he a)
  · simp at h

theorem Follows.trans {t₁ t₂ t₃ : Trail V} (h : Follows g f p t₁ t₂) (h' : Follows g f p t₂ t₃) :
    Follows g f p t₁ t₃ := by
  obtain ⟨l, hl, hf⟩ := h
  obtain ⟨l', hl', hf'⟩ := h'
  refine ⟨l ++ l', by rw [hl', hl, List.append_assoc], fun l₁ a l₂ vs he ha => ?_⟩
  rcases split_append he with ⟨m, h1, h2⟩ | ⟨m, h1⟩
  · obtain ⟨l₃, h3⟩ := hf l₁ a m vs h1 ha
    exact ⟨l₃ ++ l', by rw [h2, h3]; rfl⟩
  · exact hf' m a l₂ vs h1 ha

theorem Follows.of_entry {t t' : Trail V} (args : List V) {l : List (Event V)}
    (h : t'.trace = t.trace ++ .body f args :: l) (hl : ∀ a, Event.body f a ∉ l)
    (hp : ∀ vs, g.code args = .accept vs → ∃ l₃, l = .body p vs :: l₃) : Follows g f p t t' := by
  refine ⟨_, h, fun l₁ a l₂ vs he ha => ?_⟩
  rcases List.cons_eq_append_iff.mp he with ⟨-, h'⟩ | ⟨m, -, h'⟩
  · obtain ⟨h1, rfl⟩ := List.cons_eq_cons.mp h'
    cases h1
    exact hp vs ha
  · exact absurd (h' ▸ List.mem_append_right _ (List.mem_cons_self ..)) (hl a)

end

section
variable {y : Slot} {x : Option Ref} {q : Stage V} {post : Chain V}
  (hf : f ∉ (q :: post).map Stage.this)
include hf

theorem follows_written (args : List V) :
    Moves (Follows g f q.this) (Chain.run (⟨f, g.accRej, y, x⟩ :: q :: post) args) := by
  intro t
  obtain ⟨l, hl, hne⟩ := Chain.run_entry (s := ⟨f, g.accRej, y, x⟩) hf args t
  refine Follows.of_entry args (l := l) (by rw [hl]; simp [Trail.emit]) (fun a ha => hne _ ha a rfl)
    (fun vs hg => ?_)
  have hx : Chain.run (⟨f, g.accRej, y, x⟩ :: q :: post) args t
      = Chain.run (q :: post) vs (t.emit (.body f args)) := by
    rw [Chain.run, bind_ok (modify_apply _ t), StageFun.accRej, Chain.runBody, hg]
    exact Chain.exec_accept ..
  obtain ⟨l', hl', -⟩ := Chain.run_head q post vs (t.emit (.body f args))
  have h1 : (t.emit (.body f args)).trace ++ l
      = (t.emit (.body f args)).trace ++ .body q.this vs :: l' := by
    rw [← hl, hx, hl']
    simp [Trail.emit]
  exact ⟨l', List.append_cancel_left h1⟩

theorem follows_chain {pre : Chain V} (hpre : f ∉ pre.map Stage.this) (args : List V) :
    Moves (Follows g f q.this)
      (Chain.run (pre ++ ⟨f, g.accRej, y, x⟩ :: q :: post) args) := by
  induction pre generalizing args with
  | nil => exact follows_written hf args
  | cons s pre ih =>
    rw [List.map_cons, List.mem_cons, not_or] at hpre
    refine Chain.stage_moves (fun _ => .of_eq rfl) (fun _ _ _ => .trans) args (fun _ => .of_eq rfl)
      (fun _ _ => .of_eq rfl) (fun _ _ => .of_eq rfl) (fun t _ => .emit (by simp) t)
      (fun t => .emit (fun a he => ?_) t) (fun _ => ih hpre.2)
    cases he
    exact hpre.1 rfl

/-- a stage that returns `void` never runs the next one -/
theorem void_chain (junk : List V) {pre : Chain V} (hq : q.this ∉ pre.map Stage.this)
    (args : List V) :
    Moves (Emits fun e => ∀ a, e ≠ .body q.this a)
      (Chain.run (pre ++ ⟨f, g.rej .void junk, y, x⟩ :: q :: post) args) := by
  induction pre generalizing args with
  | nil =>
    have hne : f ≠ q.this := fun e => hf (by simp [e])
    refine Chain.stage_moves (fun _ => .of_eq rfl) (fun _ _ _ => .trans) args (fun _ => .of_eq rfl)
      (fun _ _ => .of_eq rfl) (fun _ _ => .of_eq rfl) (fun t _ => .emit t (by simp))
      (fun t => .emit t (fun a he => ?_)) (fun h => ?_)
    · exact hne (Event.body.inj he).1
    · cases h
  | cons s pre ih =>
    rw [List.map_cons, List.mem_cons, not_or] at hq
    refine Chain.stage_moves (fun _ => .of_eq rfl) (fun _ _ _ => .trans) args (fun _ => .of_eq rfl)
      (fun _ _ => .of_eq rfl) (fun _ _ => .of_eq rfl) (fun t _ => .emit t (by simp))
      (fun t => .emit t (fun a he => ?_)) (fun _ => ih hq.2)
    exact hq.1 (Event.body.inj he).1.symm

end

omit [Movable V] in
theorem not_pairwise_entered {R : List V → List V → Prop} {l : List (Event V)}
    (h : ¬ (entered f l).Pairwise R) : ∃ l₁ a l₂ a', l = l₁ ++ .body f a :: l₂ ∧
      Event.body f a' ∈ l₂ ∧ ¬ R a a' := by
  induction l with
  | nil => exact absurd List.Pairwise.nil h
  | cons e l ih =>
    have later : ¬ (entered f l).Pairwise R → ∃ l₁ a l₂ a', e :: l = l₁ ++ .body f a :: l₂ ∧
        Event.body f a' ∈ l₂ ∧ ¬ R a a' := by
      intro h'
      obtain ⟨l₁, a, l₂, a', h1, h2⟩ := ih h'
      exact ⟨e :: l₁, a, l₂, a', by rw [h1]; rfl, h2⟩
    cases e with
    | handler x a => exact later (by simpa using h)
    | body u a =>
      by_cases hu : u = f
      · subst hu
        rw [entered_self, List.pairwise_cons, not_and_or] at h
        rcases h with h | h
        · push Not at h
          obtain ⟨a', ha', hR⟩ := h
          exact ⟨[], a, l, a', rfl, mem_entered.mp ha', hR⟩
        · exact later h
      · rw [entered_other hu] at h
        exact later h

/-- If what reaches the stage is not harmless, some way to write it shows. -/
theorem style_shows {y : Slot} {x : Option Ref} {pre post : Chain V} {q : Stage V}
    (hnd : ((pre ++ ⟨f, g.accRej, y, x⟩ :: q :: post).map Stage.this).Nodup) (args : List V)
    {t : Trail V} (ht : t.trace = [])
    (hh : Harmed g f (final (Chain.run (pre ++ ⟨f, g.accRej, y, x⟩ :: q :: post) args t))) :
    ∃ b, b.Writes g ∧ ∀ t' : Trail V, t'.trace = [] →
      (final (Chain.run (pre ++ ⟨f, b, y, x⟩ :: q :: post) args t')).trace
        ≠ (final (Chain.run (pre ++ ⟨f, g.accRej, y, x⟩ :: q :: post) args t)).trace := by
  have hnd' : ∀ b, ((pre ++ ⟨f, b, y, x⟩ :: q :: post).map Stage.this).Nodup := fun b => by
    simpa using hnd
  rw [List.map_append, List.map_cons, List.nodup_append] at hnd
  obtain ⟨-, h1, h2⟩ := hnd
  have hf : f ∉ (q :: post).map Stage.this := (List.nodup_cons.mp h1).1
  have hpre : f ∉ pre.map Stage.this := fun h => h2 f h f (List.mem_cons_self ..) rfl
  have hq : q.this ∉ pre.map Stage.this := fun h => h2 _ h q.this (by simp) rfl
  obtain ⟨l, hl, hfol⟩ := follows_chain (g := g) (y := y) (x := x) hf hpre args t
  rw [ht, List.nil_append] at hl
  unfold Harmed at hh
  rw [hl] at hh ⊢
  -- an accepted input runs the next stage
  have hnext : ∀ {l₁ a l₂}, l = l₁ ++ .body f a :: l₂ → ¬ g.Rejects a →
      ∃ vs, Event.body q.this vs ∈ l₂ := by
    intro l₁ a l₂ he ha
    cases hg : g.code a with
    | reject es => exact absurd ⟨es, hg⟩ ha
    | accept vs =>
      obtain ⟨l₃, h3⟩ := hfol l₁ a l₂ vs he hg
      exact ⟨vs, h3 ▸ List.mem_cons_self ..⟩
  unfold Harmless at hh
  by_cases hk : k = 0
  · rw [if_pos hk] at hh
    push Not at hh
    obtain ⟨a, ha, hr⟩ := hh
    obtain ⟨l₁, l₂, he⟩ := List.append_of_mem (mem_entered.mp ha)
    obtain ⟨vs, hvs⟩ := hnext he hr
    refine ⟨g.rej .void [], g.rej_writes (r := .void) hk [], fun t' ht' e => ?_⟩
    obtain ⟨l', hl', hno⟩ := void_chain (g := g) (y := y) (x := x) hf [] hq args t'
    rw [ht', List.nil_append, e] at hl'
    subst hl'
    exact hno _ (he ▸ List.mem_append_right _ (List.mem_cons_of_mem _ hvs)) vs rfl
  · rw [if_neg hk] at hh
    obtain ⟨l₁, a, l₂, a', he, ha', hR⟩ := not_pairwise_entered hh
    rw [Classical.not_imp] at hR
    obtain ⟨m, m', hm⟩ := List.append_of_mem ha'
    have he' : l = (l₁ ++ .body f a :: m) ++ .body f a' :: m' := by
      rw [he, hm]
      simp
    obtain ⟨vs, hvs⟩ := hnext he' hR.2
    refine ⟨g.rej .multi [], g.rej_writes (r := .multi) (Nat.pos_of_ne_zero hk) [],
      fun t' ht' e => ?_⟩
    obtain ⟨l', hl', -, hshut⟩ := shuts_chain (hnd' (g.rej .multi [])) args t'
    rw [ht', List.nil_append, ← StageFun.rej, e] at hl'
    subst hl'
    obtain ⟨es, hes⟩ := hR.1
    refine (hshut l₁ a l₂ he (by simp [hes, rejects])).2 vs ?_
    rw [hm]
    exact List.mem_append_right _ (List.mem_cons_of_mem _ hvs)

/-! ## which inputs reach a stage -/

section
omit [Movable V]

def accepts {acc : Bool} (code : List (Stmt V acc)) : List (List V) :=
  code.filterMap fun
    | .accept _ vs => some vs
    | _ => none

/-- the values a body hands to the next future before it returns -/
def Body.handed (b : Body V) (args : List V) : List (List V) :=
  match b with
  | .accRej code => accepts (code args)
  | .rej r code => if rejects (code args).1 || r = .void then [] else [(code args).2]
  | .noFun r code => if r = .void then [] else [code args]

/-- an `ACC_REJ` body calls its accept function at most once before it returns -/
def Body.HandsOnce (b : Body V) : Prop := ∀ args, (b.handed args).length ≤ 1

/-- what arrives after the futures of a chain when the first one runs on `args` -/
def feeds : Chain V → List V → List (List V)
  | [], args => [args]
  | s :: rest, args => (s.body.handed args).flatMap (feeds rest)

/-- from `t` to `t'` the body of `f` was called on the inputs `ins` -/
def Enters (f : Ref) (ins : List (List V)) (t t' : Trail V) : Prop :=
  ∃ l, t'.trace = t.trace ++ l ∧ entered f l = ins

theorem Enters.of_emits {P : Event V → Prop} {t t' : Trail V} (h : Emits P t t')
    (hP : ∀ a, ¬ P (.body f a)) : Enters f [] t t' := by
  obtain ⟨l, hl, hno⟩ := h
  refine ⟨l, hl, List.eq_nil_iff_forall_not_mem.mpr fun a ha => ?_⟩
  exact hP a (hno _ (mem_entered.mp ha))

theorem Enters.trans {ins ins' : List (List V)} {t₁ t₂ t₃ : Trail V} (h : Enters f ins t₁ t₂)
    (h' : Enters f ins' t₂ t₃) : Enters f (ins ++ ins') t₁ t₃ := by
  obtain ⟨l, hl, he⟩ := h
  obtain ⟨l', hl', he'⟩ := h'
  exact ⟨l ++ l', by rw [hl', hl, List.append_assoc], by rw [entered_append, he, he']⟩

theorem accepts_rej (code : List (Stmt V false)) : accepts code = [] := by
  apply List.filterMap_eq_nil_iff.mpr
  rintro (⟨h, vs⟩ | es | task) - <;> first | rfl | exact absurd h (by simp)

/-- Statements of a future that is not the last one return if they accept nothing; each reject
among them calls the handler it reaches. -/
theorem Chain.exec_returns (next : List V → A V Unit) {s : Stage V} (rest : Chain V)
    (hs : s.slot ≠ .empty) {acc : Bool} {code : List (Stmt V acc)} (ha : accepts code = [])
    (t : Trail V) : ∃ t' n, Chain.exec next (s :: rest) s.this code t = .ok () t' ∧
      t'.trace = t.trace ++ (List.replicate n (caughtCalls (s :: rest))).flatten := by
  induction code generalizing t with
  | nil => exact ⟨t, 0, rfl, (List.append_nil _).symm⟩
  | cons st code ih =>
    cases st with
    | accept h vs => cases ha
    | reject es =>
      obtain ⟨t₁, h1, h2, -⟩ := Chain.reject_eq rest hs (!acc) t
      obtain ⟨t₂, n, h3, h4⟩ := ih ha t₁
      refine ⟨t₂, n + 1, (bind_ok h1).trans h3, ?_⟩
      rw [h4, h2, List.replicate_succ, List.flatten_cons, List.append_assoc]
    | add task => exact ih ha (t.add ⟨acc, s.this, task⟩)

/-- a reject of a future that is not the last one returns -/
theorem Chain.reject_ok {s : Stage V} (rest : Chain V) (hs : s.slot ≠ .empty) (b : Bool)
    (t : Trail V) : ∃ t', Chain.reject (s :: rest) b t = .ok () t' ∧
      t'.errored = (if b then t.setErrored s.this else t).errored ∧ Enters f [] t t' := by
  obtain ⟨t', h1, h2, h3, -⟩ := Chain.reject_eq rest hs b t
  refine ⟨t', h1, h3, _, h2, ?_⟩
  unfold caughtCalls
  cases Chain.caught (s :: rest) with
  | none => rfl
  | some x => rfl

/-- the statements of a body that was given no accept function -/
theorem Chain.exec_rej (next : List V → A V Unit) {s : Stage V} (rest : Chain V)
    (hs : s.slot ≠ .empty) (code : List (Stmt V false)) (t : Trail V) :
    ∃ t', Chain.exec next (s :: rest) s.this code t = .ok () t' ∧ Enters f [] t t' ∧
      t'.errored s.this = (t.errored s.this || rejects code) ∧
      ∀ u, u ≠ s.this → t'.errored u = t.errored u := by
  obtain ⟨t', -, h, -⟩ := Chain.exec_returns next rest hs (accepts_rej code) t
  have h1 := Chain.exec_rejects (P := fun e => ∀ a, e ≠ .body f a) (s := s) (by simp) next rest
    code t
  rw [h] at h1
  exact ⟨t', h, .of_emits h1.1 (by simp), h1.2⟩

end

omit [Movable V] in
theorem not_body_emits {next : List V → A V Unit} {s : Stage V} (rest : Chain V) (f : Ref)
    {acc : Bool} {code : List (Stmt V acc)} (hc : accepts code = []) :
    Moves (Emits fun e => ∀ a, e ≠ Event.body f a) (Chain.exec next (s :: rest) s.this code) := by
  refine Chain.exec_emits rest s.this (by simp) code (fun h vs hm => ?_)
  have : vs ∈ accepts code := List.mem_filterMap.mpr ⟨_, hm, rfl⟩
  rw [hc] at this
  exact absurd this (by simp)

omit [Movable V] in
/-- the statements of a body with both functions that accepts at most once -/
theorem Chain.exec_enters {next : List V → A V Unit} {s : Stage V} (rest : Chain V)
    (hs : s.slot ≠ .empty) {K : Trail V → Prop} (hok : ∀ t t', t'.errored = t.errored → K t → K t')
    {ins : List V → List (List V)} (hnext : ∀ vs t, K t → Enters f (ins vs) t (final (next vs t)))
    (code : List (Stmt V true)) (hone : (accepts code).length ≤ 1) {t : Trail V} (ht : K t) :
    Enters f ((accepts code).flatMap ins) t
      (final (Chain.exec next (s :: rest) s.this code t)) := by
  induction code generalizing t with
  | nil => exact ⟨[], by simp [Chain.exec, pure_apply], rfl⟩
  | cons st code ih =>
    cases st with
    | accept h vs =>
      have hnil : accepts code = [] := by
        apply List.eq_nil_of_length_eq_zero
        have : (accepts code).length + 1 ≤ 1 := hone
        omega
      have h1 := hnext vs t ht
      have h2 : (accepts (Stmt.accept h vs :: code)).flatMap ins = ins vs ++ [] := by
        show (vs :: accepts code).flatMap ins = _
        rw [hnil]
        simp
      rw [h2, Chain.exec]
      cases hn : next vs t with
      | ok u t₁ =>
        rw [hn] at h1
        rw [bind_ok hn]
        exact h1.trans (.of_emits (not_body_emits rest f hnil t₁) (by simp))
      | error e t₁ =>
        rw [hn] at h1
        rw [bind_error hn, List.append_nil]
        exact h1
    | reject es =>
      obtain ⟨t₁, h1, h2, h3⟩ := Chain.reject_ok (f := f) rest hs false t
      have h4 := ih hone (hok t t₁ h2 ht)
      rw [Chain.exec, Bool.not_true, bind_ok h1]
      exact h3.trans h4
    | add task => exact ih hone (t := t.add ⟨true, s.this, task⟩) (hok t _ rfl ht)

/-- **What reaches a stage**, when no earlier body hands on more than one value. -/
theorem Chain.run_enters {s₀ : Stage V} {pre post : Chain V} (hsh : Shaped (pre ++ s₀ :: post))
    (hnd : ((pre ++ s₀ :: post).map Stage.this).Nodup) (once : ∀ s ∈ pre, s.body.HandsOnce)
    (args : List V) {t : Trail V} (he : ∀ s ∈ pre, t.errored s.this = false) :
    Enters s₀.this (feeds pre args) t (final (Chain.run (pre ++ s₀ :: post) args t)) := by
  induction pre generalizing args t with
  | nil =>
    have h1 : s₀.this ∉ post.map Stage.this := (List.nodup_cons.mp hnd).1
    have h2 : Enters s₀.this [args] t (t.emit (.body s₀.this args)) := ⟨_, rfl, by simp [entered]⟩
    exact h2.trans (.of_emits (Chain.run_entry h1 args t) (by simp))
  | cons s pre ih =>
    obtain ⟨hslot, hsh'⟩ := hsh
    rw [List.cons_append, List.map_cons, List.nodup_cons] at hnd
    have hs : s.slot ≠ .empty := by
      intro h
      rw [h] at hslot
      exact absurd hslot.1 (by simp)
    have hlast : (pre ++ s₀ :: post).isEmpty = false := by simp
    have hne : s.this ≠ s₀.this := fun e => hnd.1 (by simp [e])
    have hpre : ∀ s' ∈ pre, s'.this ≠ s.this := fun s' hs' e => hnd.1 (by
      rw [← e, List.map_append]
      exact List.mem_append_left _ (List.mem_map_of_mem hs'))
    have ih' : ∀ vs (t : Trail V), (∀ s' ∈ pre, t.errored s'.this = false) →
        Enters s₀.this (feeds pre vs) t (final (Chain.run (pre ++ s₀ :: post) vs t)) :=
      fun vs t => ih hsh' hnd.2 (fun s' hs' => once s' (List.mem_cons_of_mem _ hs')) vs
    have h0 : Enters s₀.this [] t (t.emit (.body s.this args)) :=
      ⟨_, rfl, by rw [entered_other hne]; rfl⟩
    have he0 : ∀ s' ∈ pre, (t.emit (.body s.this args)).errored s'.this = false :=
      fun s' hs' => he s' (List.mem_cons_of_mem _ hs')
    have hes : t.errored s.this = false := he s (List.mem_cons_self ..)
    have honce := once s (List.mem_cons_self ..) args
    -- a style that returns, once its own code is done
    have ret : ∀ (r : Ret) vs (t : Trail V) (rej : Bool), t.errored s.this = rej →
        (∀ s' ∈ pre, t.errored s'.this = false) →
        Enters s₀.this ((if rej || r = .void then [] else [vs]).flatMap (feeds pre)) t
          (final (Chain.callbody (Chain.run (pre ++ s₀ :: post)) false s.this r vs t)) := by
      intro r vs t rej hrej ht
      by_cases hstop : rej = true ∨ r = .void
      · obtain ⟨t₁, e, -, h1, -⟩ := Chain.callbody_stop (Chain.run (pre ++ s₀ :: post)) false s.this
          r vs (t := t) (by rw [hrej]; tauto)
        rw [e, if_pos (by simpa using hstop)]
        exact ⟨[], by simp [h1], rfl⟩
      · rw [not_or] at hstop
        obtain ⟨t₁, e, h1, h2, -⟩ := Chain.callbody_go (Chain.run (pre ++ s₀ :: post)) hstop.2 vs
          (t := t) (by rw [hrej]; simpa using hstop.1)
        rw [e, if_neg (by simpa using hstop), List.flatMap_singleton]
        obtain ⟨l, hl, hin⟩ := ih' vs t₁ (fun s' hs' => (congrFun h1 _).trans (ht s' hs'))
        exact ⟨l, by rw [hl, h2], hin⟩
    rw [List.cons_append, Chain.run, bind_ok (modify_apply _ t), hlast]
    refine h0.trans ?_
    show Enters s₀.this ((s.body.handed args).flatMap (feeds pre)) _ _
    cases hb : s.body with
    | accRej code =>
      rw [hb] at honce
      exact Chain.exec_enters (pre ++ s₀ :: post) hs
        (K := fun t => ∀ s' ∈ pre, t.errored s'.this = false)
        (fun t t' e ht s' hs' => (congrFun e _).trans (ht s' hs')) ih' (code args) honce he0
    | rej r code =>
      obtain ⟨t₁, h1, h2, h3, h4⟩ := Chain.exec_rej (f := s₀.this)
        (Chain.run (pre ++ s₀ :: post)) (pre ++ s₀ :: post) hs (code args).1
        (t.emit (.body s.this args))
      rw [Chain.runBody, bind_ok h1]
      refine h2.trans (ret r (code args).2 t₁ _ ?_ fun s' hs' => ?_)
      · rw [h3]
        show (t.errored s.this || _) = _
        rw [hes, Bool.false_or]
      · exact (h4 _ (hpre s' hs')).trans (he0 s' hs')
    | noFun r code =>
      have h1 := ret r (code args) (t.emit (.body s.this args)) false hes he0
      rw [Body.handed, Chain.runBody]
      simpa using h1

/-! ## the first run of a built chain -/

section
variable {h : Heap V} {cs : List (List Ref)} (hb : Built Anywhere h cs) {hd : Ref}
  {pre post : List Ref} (hc : hd :: (pre ++ f :: post) ∈ cs)
include hb hc

/-- the first run with the stage written as `b`, read off the chain -/
theorem firstRun_setBody (args : List V) :
    ∃ y x, ∀ b, ∃ t : Trail V, t.errored = (fun _ => false) ∧ t.trace = [] ∧ t.dyn_tq = [] ∧
      ((chain h pre ++ ⟨f, b, y, x⟩ :: chain h post).map Stage.this).Nodup ∧
      Shaped (chain h pre ++ ⟨f, b, y, x⟩ :: chain h post) ∧
      (chain h post = [] ↔ post = []) ∧
      firstRun (setBody h f b) hd args
        = t.seen (Chain.run (chain h pre ++ ⟨f, b, y, x⟩ :: chain h post)
            (delivered h hd args)) := by
  obtain ⟨y, x, hch⟩ := chain_setBody hb hc
  refine ⟨y, x, fun b => ?_⟩
  have hb' := hb.setBody hc (f := f) (by simp) b
  have hnd := List.nodup_cons.mp (hb.nodup hc)
  have hne : f ≠ hd := fun e => hnd.1 (by simp [e])
  obtain ⟨t, h1, h2, h3, h4⟩ := seen_first_run hb' hc args
  have hdel : delivered (setBody h f b) hd args = delivered h hd args := by
    unfold delivered setBody
    rw [List.getElem?_modify_ne _ _ hne]
  have h5 := hb'.this hc
  rw [hch b] at h4 h5
  rw [hdel] at h4
  refine ⟨t, h1, h2, h3, h5 ▸ hnd.2, hch b ▸ hb'.shaped hc, ?_, h4⟩
  have h6 := @chain_this V h post (fun g hg => hb.kinds hc g (by simp [hg]))
  constructor
  · intro e
    rw [e] at h6
    exact h6.symm
  · rintro rfl
    rfl

theorem styles_show_same {args : List V}
    (hh : post = [] ∨ Harmless g (entered f (firstRun (setBody h f g.accRej) hd args).calls))
    {b : Body V} (hw : b.Writes g) :
    firstRun (setBody h f b) hd args = firstRun (setBody h f g.accRej) hd args := by
  obtain ⟨y, x, hrun⟩ := firstRun_setBody (f := f) hb hc args
  obtain ⟨t, h1, h2, h3, hnd, -, hpost, h4⟩ := hrun g.accRej
  obtain ⟨t', h1', h2', h3', -, -, -, h4'⟩ := hrun b
  rw [h4, h4']
  rw [h4] at hh
  rw [List.map_append, List.map_cons, List.nodup_append] at hnd
  have hst : Styled g f t t' := by
    refine ⟨by rw [h2, h2'], by rw [h3, h3'], fun u _ => by rw [h1, h1'], by rw [h1], fun he => ?_⟩
    rw [h1'] at he
    cases he
  have hsim := styled_chain (B := fun t => post ≠ [] ∧ Harmed g f t)
    (fun t t' hg hb => ⟨hb.1, hb.2.grows hg⟩) hw (y := y) (x := x)
    (List.nodup_cons.mp hnd.2.1).1 (fun hp t ht => ⟨fun e => hp (hpost.mpr e), ht⟩)
    (fun hf => hnd.2.2 f hf f (List.mem_cons_self ..) rfl) (delivered h hd args) t t' hst (by
      rintro ⟨hp, hbad⟩
      have hharmless := hh.resolve_left hp
      rw [Trail.seen_calls_start h2] at hharmless
      exact hbad hharmless)
  have hfin := hsim.final
  unfold Trail.seen
  rw [outcome_eq hsim, hfin.trace, hfin.dyn_tq, h2, h3, h2', h3']

/-- **The styles of one stage.**  All ways to write a stage make the same calls in the first run
exactly when it is the last stage or what reaches it (with the stage written with both functions)
is harmless; and when no earlier body hands on more than one value, what reaches it is what the
bodies before it hand on.  Only the calls made until `run` returns are compared; closures that it leaves
in the queue are not executed. -/
theorem styles_agree_iff {k : Nat} (g : StageFun V k) (args : List V) :
    ((∀ b b', b.Writes g → b'.Writes g → (firstRun (setBody h f b) hd args).calls
        = (firstRun (setBody h f b') hd args).calls) ↔
      post = [] ∨ Harmless g (entered f (firstRun (setBody h f g.accRej) hd args).calls)) ∧
    ((∀ s ∈ chain h pre, s.body.HandsOnce) →
      entered f (firstRun (setBody h f g.accRej) hd args).calls
        = feeds (chain h pre) (delivered h hd args)) := by
  refine ⟨⟨fun hall => ?_, fun hh b b' hw hw' => ?_⟩, fun once => ?_⟩
  · by_contra hn
    rw [not_or] at hn
    obtain ⟨y, x, hrun⟩ := firstRun_setBody (f := f) hb hc args
    obtain ⟨t, h1, h2, h3, hnd, -, hpost, h4⟩ := hrun g.accRej
    obtain ⟨q, post', hq⟩ := List.exists_cons_of_ne_nil (fun e => hn.1 (hpost.mp e))
    rw [h4] at hn
    rw [hq, Trail.seen_calls_start h2] at hn
    rw [hq] at hnd
    obtain ⟨b, hw, hshow⟩ := style_shows hnd (delivered h hd args) h2 hn.2
    obtain ⟨t', h1', h2', h3', -, -, -, h4'⟩ := hrun b
    refine hshow t' h2' ?_
    have hsame := hall b g.accRej hw g.accRej_writes
    rwa [h4, h4', hq, Trail.seen_calls_start h2, Trail.seen_calls_start h2'] at hsame
  · rw [styles_show_same hb hc hh hw, styles_show_same hb hc hh hw']
  · obtain ⟨y, x, hrun⟩ := firstRun_setBody (f := f) hb hc args
    obtain ⟨t, h1, h2, h3, hnd, hsh, -, h4⟩ := hrun g.accRej
    rw [h4]
    obtain ⟨l, hl, hin⟩ := Chain.run_enters hsh hnd once
      (delivered h hd args) (t := t) (fun s _ => by rw [h1])
    rw [Trail.seen_calls hl]
    exact hin

end

end

/-- `args.sum + 1`, as a stage of `main` computes it -/
def addOne : StageFun Nat 1 where
  code args := .accept [args.sum + 1]
  arity h := by cases h; rfl

/-- `f3` of `main`, with both functions and returning a `Multi` -/
theorem styles_agree_main :
    (firstRun (setBody (mainHeap body2) 3 addOne.accRej) 1 []).calls
      = (firstRun (setBody (mainHeap body2) 3 (.noFun .multi fun args => [args.sum + 1])) 1 []).calls := by
  have hc : 1 :: ([2] ++ 3 :: [4, 5]) ∈ [[1, 2, 3, 4, 5], [0]] := List.mem_cons_self ..
  have h := styles_agree_iff (mainHeap_built body2).anywhere hc addOne []
  refine h.1.mpr (.inr ?_) _ _ addOne.accRej_writes ⟨fun args => rfl, Nat.le_refl 1⟩
  have hpre : chain (mainHeap body2) [2] = [⟨2, body2, .next, none⟩] := rfl
  have once : ∀ s ∈ chain (mainHeap body2) [2], s.body.HandsOnce := by
    rw [hpre]
    intro s hs
    obtain rfl := List.mem_singleton.mp hs
    exact fun args => Nat.le_refl 1
  rw [h.2 once, show feeds (chain (mainHeap body2) [2]) (delivered (mainHeap body2) 1 []) = [[7]]
    from rfl]
  simp [Harmless]

/-- a stage that takes its inputs and hands on no value -/
def sink : StageFun Nat 0 where
  code _ := .accept []
  arity h := by cases h; rfl

/-- a stage that hands on no value, between a bound head and one more stage -/
def sinkHeap (b : Body Nat) : Heap Nat := then_ (then_ (bound [] [1]) 0 b) 1 (.noFun .single fun _ => [3])

/-- Written with its accept function the stage runs the next one; returning `void` it does not. -/
theorem void_stage_stops :
    Built BeforeExcept (sinkHeap sink.accRej) [[0, 1, 2]] ∧
    Built BeforeExcept (sinkHeap (.noFun .void fun _ => [])) [[0, 1, 2]] ∧
    sink.accRej.Writes sink ∧ (Body.noFun .void fun _ => []).Writes sink ∧
    (firstRun (sinkHeap sink.accRej) 0 []).calls = [.body 1 [1], .body 2 []] ∧
    (firstRun (sinkHeap (.noFun .void fun _ => [])) 0 []).calls = [.body 1 [1]] := by
  have built : ∀ b, Built BeforeExcept (sinkHeap b) [[0, 1, 2]] := by
    intro b
    have h1 := @Built.then_ Nat BeforeExcept _ [] [] [] 0 b (.bound [1] .empty)
      (by intro F hF; cases hF; rfl)
    exact @Built.then_ Nat BeforeExcept _ [] [] [0] 1 _ h1 (by intro F hF; cases hF; rfl)
  exact ⟨built _, built _, sink.accRej_writes, ⟨fun args => rfl, rfl⟩, rfl, rfl⟩

end Future
end Pharoah
