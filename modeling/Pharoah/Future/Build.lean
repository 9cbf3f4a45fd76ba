import Pharoah.Future.Refine
import Pharoah.Lib.SelfRef
import Mathlib.Data.List.Nodup
import Mathlib.Data.List.Range
import Mathlib.Data.Finset.Card

/-!
# Futures: chains built by the calls of the library

`Built ok h cs` says that the calls `bound`, `unbound`, `then_` and `except`, in some order, made
the heap `h` and on it the chains `cs` (each the list of its futures, head first), `then_` being
called only where `ok` allows it:

* `Anywhere`       any order of `then_` and `except`;
* `BeforeExcept`   `then_` on a future only before `except` on it.

`Built.wf` collects what holds of every heap so built, `Built.linked` reads a chain off it, and
`run_chain` is the entry point of all results about chains: **`run` on the head of a built chain
is `Chain.start`**.
-/

namespace Pharoah
namespace Future

open Prog

section
variable {V : Type}

inductive Built (ok : Heap V → Ref → Prop) : Heap V → List (List Ref) → Prop where
  | empty : Built ok [] []
  | bound {h : Heap V} {cs : List (List Ref)} (vs : List V) :
      Built ok h cs → Built ok (bound h vs) ([h.length] :: cs)
  | unbound {h : Heap V} {cs : List (List Ref)} :
      Built ok h cs → Built ok (unbound h) ([h.length] :: cs)
  | then_ {h : Heap V} {cs ds : List (List Ref)} {c : List Ref} {f : Ref} (b : Body V) :
      Built ok h (cs ++ (c ++ [f]) :: ds) → ok h f →
      Built ok (then_ h f b) (cs ++ (c ++ [f, h.length]) :: ds)
  | except {h : Heap V} {cs : List (List Ref)} {f : Ref} :
      Built ok h cs → f ∈ cs.flatten → Built ok (except h f) cs

def Anywhere (_ : Heap V) (_ : Ref) : Prop := True

/-- no handler is attached to `f` yet -/
def BeforeExcept (h : Heap V) (f : Ref) : Prop := ∀ F, h[f]? = some F → F.nxtF = none

theorem Built.anywhere {ok : Heap V → Ref → Prop} {h : Heap V} {cs : List (List Ref)}
    (hb : Built ok h cs) : Built Anywhere h cs := by
  induction hb with
  | empty => exact .empty
  | bound vs _ ih => exact .bound vs ih
  | unbound _ ih => exact .unbound ih
  | then_ b _ _ ih => exact .then_ b ih trivial
  | except _ hf ih => exact .except ih hf

/-! ## what holds of a built heap -/

/-- the object of an `EXCEPT` future -/
def IsExcept (h : Heap V) (x : Ref) : Prop := h[x]? = some { kind := .except }

/-- The future `f` of a chain, `nxt` being the one after it. -/
structure CellOk (h : Heap V) (F : Object V) (nxt : Option Ref) : Prop where
  kind : F.kind ≠ .except
  nxtReject : F.nxtReject = none
  nxtAccept : F.nxtAccept = nxt
  nxtForward : (F.nxtForward = none ∧ F.nxtF = none ∧ nxt = none) ∨
    (∃ n, F.nxtForward = some (.forward n) ∧ nxt = some n) ∨
    (∃ x, F.nxtForward = some (.errbody x) ∧ F.nxtF = some x)

def CellAt (h : Heap V) (f : Ref) (nxt : Option Ref) : Prop :=
  ∃ F, h[f]? = some F ∧ CellOk h F nxt

def LinkedRefs (h : Heap V) : List Ref → Prop
  | [] => True
  | f :: rest => CellAt h f rest.head? ∧ LinkedRefs h rest

theorem CellAt.lt {h : Heap V} {f : Ref} {nxt : Option Ref} (hc : CellAt h f nxt) :
    f < h.length := by
  obtain ⟨F, hF, -⟩ := hc
  exact (List.getElem?_eq_some_iff.mp hF).1

theorem LinkedRefs.mem {h : Heap V} {c : List Ref} (hc : LinkedRefs h c) {f : Ref} (hf : f ∈ c) :
    ∃ nxt, CellAt h f nxt := by
  induction c with
  | nil => exact absurd hf (by simp)
  | cons g c ih =>
    rcases List.mem_cons.mp hf with rfl | hf'
    · exact ⟨_, hc.1⟩
    · exact ih hc.2 hf'

theorem LinkedRefs.map {h h' : Heap V} {c : List Ref} (hc : LinkedRefs h c)
    (hcell : ∀ f ∈ c, ∀ nxt, CellAt h f nxt → CellAt h' f nxt) : LinkedRefs h' c := by
  induction c with
  | nil => trivial
  | cons f c ih =>
    refine ⟨hcell f (List.mem_cons_self ..) _ hc.1, ih hc.2 (fun g hg => ?_)⟩
    exact hcell g (List.mem_cons_of_mem _ hg)

/-- a chain grows by one future at its end -/
theorem LinkedRefs.snoc {h h' : Heap V} {c : List Ref} {f n : Ref} (hc : LinkedRefs h (c ++ [f]))
    (hcell : ∀ g ∈ c, ∀ nxt, CellAt h g nxt → CellAt h' g nxt)
    (hf : CellAt h f none → CellAt h' f (some n)) (hn : CellAt h' n none) :
    LinkedRefs h' (c ++ [f, n]) := by
  induction c with
  | nil => exact ⟨hf hc.1, hn, trivial⟩
  | cons g c ih =>
    have hhd : (c ++ [f, n]).head? = (c ++ [f]).head? := by cases c <;> rfl
    refine ⟨?_, ih hc.2 (fun a ha => hcell a (List.mem_cons_of_mem _ ha))⟩
    show CellAt h' g (c ++ [f, n]).head?
    rw [hhd]
    exact hcell g (List.mem_cons_self ..) _ hc.1

structure WF (h : Heap V) (cs : List (List Ref)) : Prop where
  nodup : cs.flatten.Nodup
  linked : ∀ c ∈ cs, LinkedRefs h c
  tail : ∀ c ∈ cs, ∀ f ∈ c.tail, ∃ (F : Object V) (b : Body V), h[f]? = some F ∧ F.kind = .body b
  head : ∀ c ∈ cs, ∃ (f : Ref) (F : Object V), c.head? = some f ∧ h[f]? = some F ∧
    (F.kind = .bound ∨ F.kind = .unbound)
  nxtF : ∀ (f : Ref) (F : Object V) (x : Ref), h[f]? = some F → F.nxtF = some x → IsExcept h x
  nxtF_inj : ∀ (f g : Ref) (F G : Object V) (x : Ref), h[f]? = some F → h[g]? = some G →
    F.nxtF = some x → G.nxtF = some x → f = g
  errored : ∀ (f : Ref) (F : Object V), h[f]? = some F → F.errored = false

theorem WF.cell {h : Heap V} {cs : List (List Ref)} (hw : WF h cs) {f : Ref}
    (hf : f ∈ cs.flatten) : ∃ nxt, CellAt h f nxt := by
  obtain ⟨c, hc, hfc⟩ := List.mem_flatten.mp hf
  exact (hw.linked c hc).mem hfc

theorem WF.lt {h : Heap V} {cs : List (List Ref)} (hw : WF h cs) {f : Ref}
    (hf : f ∈ cs.flatten) : f < h.length := by
  obtain ⟨nxt, hc⟩ := hw.cell hf
  exact hc.lt

theorem WF.fresh {h : Heap V} {cs : List (List Ref)} (hw : WF h cs) : h.length ∉ cs.flatten :=
  fun hf => Nat.lt_irrefl _ (hw.lt hf)

theorem CellAt.frame {h h' : Heap V} {f : Ref} {nxt : Option Ref} (hc : CellAt h f nxt)
    (he : h'[f]? = h[f]?) : CellAt h' f nxt := by
  obtain ⟨F, hF, hk⟩ := hc
  exact ⟨F, he.trans hF, hk.1, hk.2, hk.3, hk.4⟩

theorem IsExcept.lt {h : Heap V} {x : Ref} (hx : IsExcept h x) : x < h.length :=
  (List.getElem?_eq_some_iff.mp hx).1

/-- a chain future is not an `EXCEPT` future -/
theorem IsExcept.ne {h : Heap V} {x f : Ref} {nxt : Option Ref} (hx : IsExcept h x)
    (hf : CellAt h f nxt) : f ≠ x := by
  rintro rfl
  obtain ⟨F, hF, hk⟩ := hf
  rw [IsExcept, hF] at hx
  cases hx
  exact hk.kind rfl

/-- Futures are only added, and none changes its kind. -/
def KeepsKinds (h h' : Heap V) : Prop :=
  ∀ (f : Ref) (k : Kind V), (h[f]?).map Object.kind = some k → (h'[f]?).map Object.kind = some k

theorem keepsKinds_push (h : Heap V) (F : Object V) : KeepsKinds h (h ++ [F]) := by
  intro f k hk
  obtain ⟨G, hG, hGk⟩ := Option.map_eq_some_iff.mp hk
  rw [List.getElem?_append_left (List.getElem?_eq_some_iff.mp hG).1, hG]
  exact congrArg some hGk

theorem keepsKinds_modify (h : Heap V) (f : Ref) {g : Object V → Object V}
    (hg : ∀ F, (g F).kind = F.kind) : KeepsKinds h (h.modify f g) := by
  intro p k hk
  obtain ⟨G, hG, hGk⟩ := Option.map_eq_some_iff.mp hk
  rw [List.getElem?_modify, hG]
  show some (Object.kind (if f = p then g G else G)) = some k
  split
  · rw [hg G, hGk]
  · rw [hGk]

theorem KeepsKinds.trans {h h' h'' : Heap V} (h1 : KeepsKinds h h') (h2 : KeepsKinds h' h'') :
    KeepsKinds h h'' := fun f k hk => h2 f k (h1 f k hk)

theorem keepsKinds_then_ (h : Heap V) (f : Ref) (b : Body V) : KeepsKinds h (then_ h f b) := by
  refine KeepsKinds.trans ?_ (keepsKinds_push _ _)
  exact keepsKinds_modify h f fun _ => rfl

theorem keepsKinds_except (h : Heap V) (f : Ref) : KeepsKinds h (except h f) := by
  refine KeepsKinds.trans ?_ (keepsKinds_push _ _)
  exact keepsKinds_modify h f fun _ => rfl

theorem KeepsKinds.get {h h' : Heap V} (hk : KeepsKinds h h') {f : Ref} {F : Object V}
    (hF : h[f]? = some F) : ∃ G, h'[f]? = some G ∧ G.kind = F.kind := by
  have hf : (h[f]?).map Object.kind = some F.kind := by
    rw [hF]
    rfl
  exact Option.map_eq_some_iff.mp (hk f F.kind hf)

/-- the bodies of a chain are bodies still -/
theorem WF.tail_kept {h h' : Heap V} {cs : List (List Ref)} (hw : WF h cs) (hk : KeepsKinds h h')
    {c : List Ref} (hc : c ∈ cs) {f : Ref} (hf : f ∈ c.tail) :
    ∃ (F : Object V) (b : Body V), h'[f]? = some F ∧ F.kind = .body b := by
  obtain ⟨F, b, hF, hb⟩ := hw.tail c hc f hf
  obtain ⟨G, hG, hkind⟩ := hk.get hF
  exact ⟨G, b, hG, hkind.trans hb⟩

theorem WF.head_kept {h h' : Heap V} {cs : List (List Ref)} (hw : WF h cs) (hk : KeepsKinds h h')
    {c : List Ref} (hc : c ∈ cs) : ∃ (f : Ref) (F : Object V), c.head? = some f ∧
      h'[f]? = some F ∧ (F.kind = .bound ∨ F.kind = .unbound) := by
  obtain ⟨f, F, hf, hF, hb⟩ := hw.head c hc
  obtain ⟨G, hG, hkind⟩ := hk.get hF
  exact ⟨f, G, hf, hG, hkind.symm ▸ hb⟩

/-- A new future that nothing links to yet starts a chain. -/
theorem WF.push {h : Heap V} {cs : List (List Ref)} (hw : WF h cs) {F : Object V}
    (hk : F.kind = .bound ∨ F.kind = .unbound) (h1 : F.nxtReject = none) (h2 : F.nxtAccept = none)
    (h3 : F.nxtForward = none) (h4 : F.nxtF = none) (h5 : F.errored = false) :
    WF (h ++ [F]) ([h.length] :: cs) := by
  have keep : ∀ c ∈ cs, ∀ f ∈ c, (h ++ [F])[f]? = h[f]? := fun c hc f hf =>
    get_old h F (hw.lt (List.mem_flatten.mpr ⟨c, hc, hf⟩))
  have hne : F.kind ≠ .except := by rcases hk with e | e <;> simp [e]
  refine ⟨?_, ?_, ?_, ?_, ?_, ?_, ?_⟩
  · rw [List.flatten_cons, List.singleton_append, List.nodup_cons]
    exact ⟨hw.fresh, hw.nodup⟩
  · intro c hc
    rcases List.mem_cons.mp hc with rfl | hc
    · exact ⟨⟨F, get_new h F, hne, h1, h2, .inl ⟨h3, h4, rfl⟩⟩, trivial⟩
    · exact (hw.linked c hc).map (fun f hf nxt hcell => hcell.frame (keep c hc f hf))
  · intro c hc f hf
    rcases List.mem_cons.mp hc with rfl | hc
    · exact absurd hf (by simp)
    · exact hw.tail_kept (keepsKinds_push h F) hc hf
  · intro c hc
    rcases List.mem_cons.mp hc with rfl | hc
    · exact ⟨h.length, F, rfl, get_new h F, hk⟩
    · exact hw.head_kept (keepsKinds_push h F) hc
  · intro f G x hG hx
    rcases getElem?_push.mp hG with hG' | ⟨-, rfl⟩
    · have := hw.nxtF f G x hG' hx
      exact (get_old h F this.lt).trans this
    · rw [h4] at hx; cases hx
  · intro f g G K x hG hK hx hx'
    rcases getElem?_push.mp hG with hG' | ⟨-, rfl⟩
    · rcases getElem?_push.mp hK with hK' | ⟨-, rfl⟩
      · exact hw.nxtF_inj f g G K x hG' hK' hx hx'
      · rw [h4] at hx'; cases hx'
    · rw [h4] at hx; cases hx
  · intro f G hG
    rcases getElem?_push.mp hG with hG' | ⟨-, rfl⟩
    · exact hw.errored f G hG'
    · exact h5

/-- the objects of the heap after `then_` -/
theorem then_cases {h : Heap V} {f r : Ref} {F G : Object V} {b : Body V} (hF : h[f]? = some F)
    (hG : (then_ h f b)[r]? = some G) :
    (r = f ∧ G = { F with nxtAccept := some h.length
                          nxtForward := some (.forward h.length), nxt := some h.length }) ∨
    (r = h.length ∧ G = { kind := .body b }) ∨ (r ≠ f ∧ r < h.length ∧ h[r]? = some G) := by
  have hlt := (List.getElem?_eq_some_iff.mp hG).1
  rw [length_then_] at hlt
  by_cases hrf : r = f
  · subst hrf
    rw [get_then_self b hF] at hG
    exact .inl ⟨rfl, (Option.some.inj hG).symm⟩
  · rcases Nat.lt_or_ge r h.length with h' | h'
    · rw [get_then_other b h' (Ne.symm hrf)] at hG
      exact .inr (.inr ⟨hrf, h', hG⟩)
    · obtain rfl : r = h.length := Nat.le_antisymm (Nat.le_of_lt_succ hlt) h'
      rw [get_then_new] at hG
      exact .inr (.inl ⟨rfl, (Option.some.inj hG).symm⟩)

theorem WF.then_ {h : Heap V} {cs ds : List (List Ref)} {c : List Ref} {f : Ref} (b : Body V)
    (hw : WF h (cs ++ (c ++ [f]) :: ds)) : WF (then_ h f b) (cs ++ (c ++ [f, h.length]) :: ds) := by
  have hmem : c ++ [f] ∈ cs ++ (c ++ [f]) :: ds := by simp
  have hfl : f ∈ (cs ++ (c ++ [f]) :: ds).flatten := List.mem_flatten.mpr ⟨_, hmem, by simp⟩
  obtain ⟨nxt, F, hF, hcF⟩ := hw.cell hfl
  have hnd := hw.nodup
  have hfresh := hw.fresh
  simp only [List.flatten_append, List.flatten_cons] at hnd hfresh hfl
  have hfc : f ∉ c := by
    intro hfc
    have h1 := (List.nodup_append.mp (List.nodup_append.mp hnd).2.1).1
    exact (List.nodup_append.mp h1).2.2 f hfc f (by simp) rfl
  have other : ∀ d ∈ cs ++ (c ++ [f]) :: ds, ∀ g ∈ d, g ≠ f →
      (Future.then_ h f b)[g]? = h[g]? := fun d hd g hg hne =>
    get_then_other b (hw.lt (List.mem_flatten.mpr ⟨d, hd, hg⟩)) (Ne.symm hne)
  have hexc : ∀ x, IsExcept h x → IsExcept (Future.then_ h f b) x := fun x hx =>
    (get_then_other b hx.lt (hx.ne ⟨F, hF, hcF⟩)).trans hx
  have hside : ∀ d, d ∈ cs ∨ d ∈ ds → d ∈ cs ++ (c ++ [f]) :: ds ∧ f ∉ d := by
    rintro d (hd | hd)
    · refine ⟨by simp [hd], fun hfd => ?_⟩
      exact (List.nodup_append.mp hnd).2.2 f (List.mem_flatten.mpr ⟨d, hd, hfd⟩) f (by simp) rfl
    · refine ⟨by simp [hd], fun hfd => ?_⟩
      have h1 := (List.nodup_append.mp (List.nodup_append.mp hnd).2.1).2.2
      exact h1 f (by simp) f (List.mem_flatten.mpr ⟨d, hd, hfd⟩) rfl
  have hsplit : ∀ d ∈ cs ++ (c ++ [f, h.length]) :: ds,
      d = c ++ [f, h.length] ∨ (d ∈ cs ++ (c ++ [f]) :: ds ∧ f ∉ d) := by
    intro d hd
    rcases List.mem_append.mp hd with hd | hd
    · exact .inr (hside d (.inl hd))
    · rcases List.mem_cons.mp hd with rfl | hd
      · exact .inl rfl
      · exact .inr (hside d (.inr hd))
  have hself : CellAt h f none → CellAt (Future.then_ h f b) f (some h.length) := by
    rintro ⟨G, hG, hk⟩
    exact ⟨_, get_then_self b hG, hk.kind, hk.nxtReject, rfl, .inr (.inl ⟨_, rfl, rfl⟩)⟩
  refine ⟨?_, ?_, ?_, ?_, ?_, ?_, ?_⟩
  · have e : (cs ++ (c ++ [f, h.length]) :: ds).flatten
        = cs.flatten ++ (c ++ [f] ++ h.length :: ds.flatten) := by simp
    rw [e, ← List.append_assoc, List.nodup_middle, List.nodup_cons]
    have e' : cs.flatten ++ (c ++ [f]) ++ ds.flatten = cs.flatten ++ (c ++ [f] ++ ds.flatten) := by
      simp
    rw [e']
    exact ⟨hfresh, hnd⟩
  · intro d hd
    rcases hsplit d hd with rfl | ⟨hd, hfd⟩
    · refine (hw.linked _ hmem).snoc (fun g hg nxt hcell => ?_) hself ?_
      · exact hcell.frame (other _ hmem g (by simp [hg]) (fun e => hfc (e ▸ hg)))
      · exact ⟨_, get_then_new h f b, by simp, rfl, rfl, .inl ⟨rfl, rfl, rfl⟩⟩
    · refine (hw.linked d hd).map (fun g hg nxt hcell => ?_)
      exact hcell.frame (other d hd g hg (fun e => hfd (e ▸ hg)))
  · intro d hd g hg
    rcases hsplit d hd with rfl | ⟨hd, hfd⟩
    · by_cases hgn : g = h.length
      · exact ⟨_, b, hgn ▸ get_then_new h f b, rfl⟩
      · have hg' : g ∈ (c ++ [f]).tail := by
          cases c with
          | nil => exact absurd (by simpa using hg) hgn
          | cons a c =>
            simp only [List.cons_append, List.tail_cons, List.mem_append, List.mem_cons,
              List.not_mem_nil, or_false] at hg ⊢
            tauto
        exact hw.tail_kept (keepsKinds_then_ h f b) hmem hg'
    · exact hw.tail_kept (keepsKinds_then_ h f b) hd hg
  · intro d hd
    rcases hsplit d hd with rfl | ⟨hd, hfd⟩
    · obtain ⟨g, G, hg, hG, hk⟩ := hw.head_kept (keepsKinds_then_ h f b) hmem
      exact ⟨g, G, by cases c <;> simpa using hg, hG, hk⟩
    · exact hw.head_kept (keepsKinds_then_ h f b) hd
  · intro r G x hG hx
    rcases then_cases hF hG with ⟨rfl, rfl⟩ | ⟨rfl, rfl⟩ | ⟨-, -, hG'⟩
    · exact hexc x (hw.nxtF r F x hF hx)
    · cases hx
    · exact hexc x (hw.nxtF r G x hG' hx)
  · intro r r' G K x hG hK hx hx'
    rcases then_cases hF hG with ⟨rfl, rfl⟩ | ⟨rfl, rfl⟩ | ⟨-, -, hG'⟩
    · rcases then_cases hF hK with ⟨rfl, rfl⟩ | ⟨rfl, rfl⟩ | ⟨-, -, hK'⟩
      · rfl
      · cases hx'
      · exact hw.nxtF_inj r r' F K x hF hK' hx hx'
    · cases hx
    · rcases then_cases hF hK with ⟨rfl, rfl⟩ | ⟨rfl, rfl⟩ | ⟨-, -, hK'⟩
      · exact hw.nxtF_inj r r' G F x hG' hF hx hx'
      · cases hx'
      · exact hw.nxtF_inj r r' G K x hG' hK' hx hx'
  · intro r G hG
    rcases then_cases hF hG with ⟨rfl, rfl⟩ | ⟨rfl, rfl⟩ | ⟨-, -, hG'⟩
    · exact hw.errored r F hF
    · rfl
    · exact hw.errored r G hG'

/-- the objects of the heap after `except` -/
theorem except_cases {h : Heap V} {f r : Ref} {F G : Object V} (hF : h[f]? = some F)
    (hG : (Future.except h f)[r]? = some G) :
    (r = f ∧ G = { F with nxtForward := some (.errbody h.length), nxtF := some h.length }) ∨
    (r = h.length ∧ G = { kind := .except }) ∨ (r ≠ f ∧ r < h.length ∧ h[r]? = some G) := by
  have hlt := (List.getElem?_eq_some_iff.mp hG).1
  rw [length_except] at hlt
  by_cases hrf : r = f
  · subst hrf
    rw [get_except_self hF] at hG
    exact .inl ⟨rfl, (Option.some.inj hG).symm⟩
  · rcases Nat.lt_or_ge r h.length with h' | h'
    · rw [get_except_other h' (Ne.symm hrf)] at hG
      exact .inr (.inr ⟨hrf, h', hG⟩)
    · obtain rfl : r = h.length := Nat.le_antisymm (Nat.le_of_lt_succ hlt) h'
      rw [get_except_new] at hG
      exact .inr (.inl ⟨rfl, (Option.some.inj hG).symm⟩)

theorem WF.except {h : Heap V} {cs : List (List Ref)} {f : Ref} (hw : WF h cs)
    (hf : f ∈ cs.flatten) : WF (Future.except h f) cs := by
  obtain ⟨nxt, F, hF, hcF⟩ := hw.cell hf
  have hnew : IsExcept (Future.except h f) h.length := get_except_new h f
  have hexc : ∀ x, IsExcept h x → IsExcept (Future.except h f) x := fun x hx =>
    (get_except_other hx.lt (hx.ne ⟨F, hF, hcF⟩)).trans hx
  have other : ∀ c ∈ cs, ∀ g ∈ c, g ≠ f → (Future.except h f)[g]? = h[g]? := fun c hc g hg hne =>
    get_except_other (hw.lt (List.mem_flatten.mpr ⟨c, hc, hg⟩)) (Ne.symm hne)
  refine ⟨hw.nodup, ?_, fun c hc g hg => hw.tail_kept (keepsKinds_except h f) hc hg,
    fun c hc => hw.head_kept (keepsKinds_except h f) hc, ?_, ?_, ?_⟩
  · intro c hc
    refine (hw.linked c hc).map (fun g hg nxt hcell => ?_)
    by_cases hgf : g = f
    · subst hgf
      obtain ⟨G, hG, hk⟩ := hcell
      exact ⟨_, get_except_self hG, hk.kind, hk.nxtReject, hk.nxtAccept, .inr (.inr ⟨_, rfl, rfl⟩)⟩
    · exact hcell.frame (other c hc g hg hgf)
  · intro r G x hG hx
    rcases except_cases hF hG with ⟨rfl, rfl⟩ | ⟨rfl, rfl⟩ | ⟨-, -, hG'⟩
    · cases hx; exact hnew
    · cases hx
    · exact hexc x (hw.nxtF r G x hG' hx)
  · intro r r' G K x hG hK hx hx'
    rcases except_cases hF hG with ⟨rfl, rfl⟩ | ⟨rfl, rfl⟩ | ⟨-, -, hG'⟩
    · rcases except_cases hF hK with ⟨rfl, rfl⟩ | ⟨rfl, rfl⟩ | ⟨-, -, hK'⟩
      · rfl
      · cases hx'
      · cases hx
        exact absurd (hw.nxtF r' K _ hK' hx').lt (Nat.lt_irrefl _)
    · cases hx
    · rcases except_cases hF hK with ⟨rfl, rfl⟩ | ⟨rfl, rfl⟩ | ⟨-, -, hK'⟩
      · cases hx'
        exact absurd (hw.nxtF r G _ hG' hx).lt (Nat.lt_irrefl _)
      · cases hx'
      · exact hw.nxtF_inj r r' G K x hG' hK' hx hx'
  · intro r G hG
    rcases except_cases hF hG with ⟨rfl, rfl⟩ | ⟨rfl, rfl⟩ | ⟨-, -, hG'⟩
    · exact hw.errored r F hF
    · rfl
    · exact hw.errored r G hG'

theorem WF.empty : WF ([] : Heap V) [] :=
  ⟨List.nodup_nil, by simp, by simp, by simp, by simp, by simp, by simp⟩

/-- **Every heap that the calls of the library build is well formed.** -/
theorem Built.wf {ok : Heap V → Ref → Prop} {h : Heap V} {cs : List (List Ref)}
    (hb : Built ok h cs) : WF h cs := by
  induction hb with
  | empty => exact WF.empty
  | bound vs _ ih => exact ih.push (.inl rfl) rfl rfl rfl rfl rfl
  | unbound _ ih => exact ih.push (.inr rfl) rfl rfl rfl rfl rfl
  | then_ b _ _ ih => exact ih.then_ b
  | except _ hf ih => exact ih.except hf

/-- `except` after `then_`: the handler attached to a future is the one its rejects reach. -/
theorem Built.attached {h : Heap V} {cs : List (List Ref)} (hb : Built BeforeExcept h cs) :
    ∀ (f : Ref) (F : Object V) (x : Ref), h[f]? = some F → F.nxtF = some x →
      F.nxtForward = some (.errbody x) := by
  have push : ∀ {h : Heap V} (G : Object V), G.nxtF = none →
      (∀ (f : Ref) (F : Object V) (x : Ref), h[f]? = some F → F.nxtF = some x →
        F.nxtForward = some (.errbody x)) →
      ∀ (f : Ref) (F : Object V) (x : Ref), (h ++ [G])[f]? = some F → F.nxtF = some x →
        F.nxtForward = some (.errbody x) := by
    intro h G hG ih f F x hF hx
    rcases getElem?_push.mp hF with hF' | ⟨-, rfl⟩
    · exact ih f F x hF' hx
    · rw [hG] at hx; cases hx
  induction hb with
  | empty => intro f F x hF; simp at hF
  | bound vs _ ih => exact push _ rfl ih
  | unbound _ ih => exact push _ rfl ih
  | @then_ h cs ds c f b hb hok ih =>
    intro r G x hG hx
    obtain ⟨nxt, F, hF, -⟩ := hb.wf.cell (f := f) (List.mem_flatten.mpr ⟨c ++ [f], by simp, by simp⟩)
    rcases then_cases hF hG with ⟨rfl, rfl⟩ | ⟨rfl, rfl⟩ | ⟨-, -, hG'⟩
    · exact absurd (hok F hF) (by rw [hx]; simp)
    · cases hx
    · exact ih r G x hG' hx
  | @except h cs f hb hf ih =>
    intro r G x hG hx
    obtain ⟨nxt, F, hF, -⟩ := hb.wf.cell hf
    rcases except_cases hF hG with ⟨rfl, rfl⟩ | ⟨rfl, rfl⟩ | ⟨-, -, hG'⟩
    · cases hx; rfl
    · cases hx
    · exact ih r G x hG' hx

/-! ## reading a chain off the heap -/

def slotOf : Option Fwd → Slot
  | none => .empty
  | some (.forward _) => .next
  | some (.errbody x) => .handler x

def stage? (h : Heap V) (f : Ref) : Option (Stage V) :=
  match h[f]? with
  | some { kind := .body b, nxtForward := g, nxtF := x, .. } => some ⟨f, b, slotOf g, x⟩
  | _ => none

/-- the futures `fs` as they stand in the heap -/
def chain (h : Heap V) (fs : List Ref) : Chain V := fs.filterMap (stage? h)

theorem stage?_eq {h : Heap V} {f : Ref} {F : Object V} {b : Body V} (hF : h[f]? = some F)
    (hk : F.kind = .body b) : stage? h f = some ⟨f, b, slotOf F.nxtForward, F.nxtF⟩ := by
  obtain ⟨k, v, n1, n2, n3, n4, n5, e⟩ := F
  obtain rfl : k = .body b := hk
  unfold stage?
  rw [hF]

theorem chain_cons {h : Heap V} {f : Ref} {F : Object V} {b : Body V} (hF : h[f]? = some F)
    (hk : F.kind = .body b) (fs : List Ref) :
    chain h (f :: fs) = ⟨f, b, slotOf F.nxtForward, F.nxtF⟩ :: chain h fs := by
  unfold chain
  rw [List.filterMap_cons, stage?_eq hF hk]

theorem chain_this {h : Heap V} {fs : List Ref}
    (hk : ∀ f ∈ fs, ∃ (F : Object V) (b : Body V), h[f]? = some F ∧ F.kind = .body b) :
    (chain h fs).map Stage.this = fs := by
  induction fs with
  | nil => rfl
  | cons f fs ih =>
    obtain ⟨F, b, hF, hb⟩ := hk f (List.mem_cons_self ..)
    rw [chain_cons hF hb, List.map_cons, ih (fun g hg => hk g (List.mem_cons_of_mem _ hg))]

theorem chain_head {h : Heap V} {fs : List Ref}
    (hk : ∀ f ∈ fs, ∃ (F : Object V) (b : Body V), h[f]? = some F ∧ F.kind = .body b) :
    (chain h fs).head?.map Stage.this = fs.head? := by
  conv_rhs => rw [← chain_this hk]
  rw [List.head?_map]

theorem linked_chain {h : Heap V} {fs : List Ref}
    (hx : ∀ (f : Ref) (F : Object V) (x : Ref), h[f]? = some F → F.nxtF = some x → IsExcept h x)
    (hk : ∀ f ∈ fs, ∃ (F : Object V) (b : Body V), h[f]? = some F ∧ F.kind = .body b)
    (hl : LinkedRefs h fs) : Linked h (chain h fs) := by
  induction fs with
  | nil => trivial
  | cons f fs ih =>
    obtain ⟨F, b, hF, hb⟩ := hk f (List.mem_cons_self ..)
    have hk' : ∀ g ∈ fs, ∃ (F : Object V) (b : Body V), h[g]? = some F ∧ F.kind = .body b :=
      fun g hg => hk g (List.mem_cons_of_mem _ hg)
    obtain ⟨⟨F', hF', hc⟩, hl'⟩ := hl
    rw [hF] at hF'; cases hF'
    rw [chain_cons hF hb]
    refine ⟨⟨F, hF, hb, hc.nxtReject, rfl, hc.nxtAccept.trans (chain_head hk').symm, ?_⟩, ih hk' hl'⟩
    rcases hc.nxtForward with ⟨h1, -, -⟩ | ⟨n, h1, h2⟩ | ⟨x, h1, h2⟩
    · rw [h1]; exact h1
    · rw [h1]
      rw [← chain_head hk'] at h2
      obtain ⟨s, hs, rfl⟩ := Option.map_eq_some_iff.mp h2
      exact ⟨s, hs, h1⟩
    · rw [h1]
      exact ⟨h1, hx f F x hF h2⟩

section
variable {ok : Heap V → Ref → Prop} {h : Heap V} {cs : List (List Ref)} (hb : Built ok h cs)
  {hd : Ref} {fs : List Ref} (hc : hd :: fs ∈ cs)
include hb hc

theorem Built.kinds : ∀ f ∈ fs, ∃ (F : Object V) (b : Body V), h[f]? = some F ∧ F.kind = .body b :=
  fun f hf => hb.wf.tail _ hc f hf

theorem Built.linked : Linked h (chain h fs) :=
  linked_chain hb.wf.nxtF (hb.kinds hc) (hb.wf.linked _ hc).2

theorem Built.this : (chain h fs).map Stage.this = fs := chain_this (hb.kinds hc)

theorem Built.head_kind {F : Object V} (hF : h[hd]? = some F) :
    F.kind = .bound ∨ F.kind = .unbound := by
  obtain ⟨f, G, hf, hG, hk⟩ := hb.wf.head _ hc
  obtain rfl : hd = f := by simpa using hf
  rw [hF] at hG
  cases hG
  exact hk

theorem Built.nodup : (hd :: fs).Nodup := by
  have h1 := hb.wf.nodup
  rw [List.nodup_flatten] at h1
  exact h1.1 _ hc

theorem Built.length_lt : fs.length < h.length := by
  have h1 : (hd :: fs).length ≤ (List.range h.length).length := by
    apply List.Subperm.length_le
    apply List.subperm_of_subset (hb.nodup hc)
    intro f hf
    exact List.mem_range.mpr (hb.wf.lt (List.mem_flatten.mpr ⟨_, hc, hf⟩))
  rw [List.length_range] at h1
  exact h1

end

/-! ## running a chain from its head -/

variable [Movable V]

/-- `run` of the head `hd`, a future of kind `k`: a bound head moves its values into the call, an
unbound one passes its arguments on. -/
def Chain.start (k : Kind V) (hd : Ref) (c : Chain V) (args : List V) : A V Unit :=
  match k, c with
  | .bound, _ :: _ => do
    let t ← get
    modify (·.setValue hd ((t.value hd).map Movable.movedFrom))
    Chain.run c (t.value hd)
  | .unbound, c => Chain.run c args
  | _, _ => pure ()

/-- **`run` on the head of a built chain runs along the list of its futures.** -/
theorem run_chain {ok : Heap V → Ref → Prop} {h : Heap V} {cs : List (List Ref)}
    (hb : Built ok h cs) {hd : Ref} {fs : List Ref} (hc : hd :: fs ∈ cs) {F : Object V}
    (hF : h[hd]? = some F) (args : List V) :
    Sim (OnHeap h) (run hd args) (Chain.start F.kind hd (chain h fs) args) := by
  obtain ⟨⟨F', hF', hcell⟩, -⟩ := hb.wf.linked _ hc
  rw [hF] at hF'; cases hF'
  obtain ⟨g, G, hg, hG, hkind⟩ := hb.wf.head _ hc
  obtain rfl : hd = g := by simpa using hg
  rw [hF] at hG; cases hG
  have hlen : (chain h fs).length ≤ h.length := by
    have h1 := congrArg List.length (hb.this hc)
    rw [List.length_map] at h1
    have h2 := hb.length_lt hc
    omega
  have hgo : ∀ s ∈ (chain h fs).head?, ∀ args,
      Sim (OnHeap h) (runN h.length s.this args) (Chain.run (chain h fs) args) :=
    runN_chain _ (hb.linked hc) h.length hlen
  have hnxt : F.nxtAccept = (chain h fs).head?.map Stage.this :=
    hcell.nxtAccept.trans (chain_head (hb.kinds hc)).symm
  rintro _ t rfl
  unfold run
  rw [get_bind]
  have hfuel : (t.world h).fuel = h.length + 1 := by simp [World.fuel]
  rw [hfuel]
  unfold runN Chain.start
  rw [deref_bind hF]
  rcases hkind with hk | hk
  · simp only [hk, hnxt]
    cases hch : chain h fs with
    | nil => exact Sim.pure () _ t rfl
    | cons s rest =>
      rw [hch] at hgo
      exact Sim.bind (sim_setValue _ _) (fun _ => hgo s rfl _) _ t rfl
  · simp only [hk, hnxt]
    cases hch : chain h fs with
    | nil => exact Sim.pure () _ t rfl
    | cons s rest =>
      rw [hch] at hgo
      exact hgo s rfl args _ t rfl

end

end Future
end Pharoah
