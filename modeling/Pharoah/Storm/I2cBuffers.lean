import Mathlib.Data.List.Nodup
import Pharoah.Storm.Refusals

/-!
# I2C operations: buffers

A buffer is owned by user code or is the payload of one operation.

* `I2c.owners`   all the places that own a buffer, user code and payloads;
* `I2c.Custody`  how buffers and operations stand after given starts, completions and releases;
* `Custody.step` **one call keeps it**, if the kernel accepts what is started.

`buffer_ownership`: **every buffer has exactly one owner until its owner frees it, the kernel uses
buffers of living operations only, and each callback runs once, with its own buffer**.
-/

namespace Pharoah
namespace Storm

open Lts

/-! ## what the calls say -/

/-- the buffer that a new operation is given -/
def I2cOp.started : I2cOp → Option (Option Buf)
  | .write _ _ payload _ _ => some payload
  | .read _ _ target _ _ => some target
  | _ => none

/-- the operation that is completed, and the status -/
def I2cOp.called : I2cOp → Option (Nat × Int)
  | .invoke t status => some (t, status)
  | _ => none

/-- the buffer that is freed -/
def I2cOp.freed : I2cOp → Option Buf
  | .freebuf b => some b
  | _ => none

namespace I2c

/-- the buffers that operations own -/
def payloads (ops : List Operation) : List Buf := ops.flatMap fun P => P.payload.toList

/-- a buffer once for each owner -/
def owners (s : I2c) : List Buf := s.bufs ++ payloads s.ops

/-- the payload of an operation -/
def payload (s : I2c) (t : Nat) : Option Buf := (s.ops[t]?).bind Operation.payload

/-! ## a buffer that moves -/

/-- the payload that leaves its operation -/
theorem payloads_take {ops : List Operation} {t : Nat} {P : Operation} (h : ops[t]? = some P) :
    (P.payload.toList ++ payloads (ops.modify t fun P => { P with payload := none })).Perm
      (payloads ops) := by
  induction ops generalizing t with
  | nil => cases h
  | cons Q ops ih =>
    cases t with
    | zero =>
      cases h
      exact List.Perm.refl _
    | succ t =>
      have hrest := ih h
      show (P.payload.toList ++ (Q.payload.toList ++ payloads (ops.modify t _))).Perm
        (Q.payload.toList ++ payloads ops)
      rw [← List.append_assoc]
      refine (List.Perm.append_right _ List.perm_append_comm).trans ?_
      rw [List.append_assoc]
      exact hrest.append_left _

theorem payloads_reset (ops : List Operation) (t : Nat) :
    payloads (ops.modify t fun P => { P with self := false }) = payloads ops := by
  induction ops generalizing t with
  | nil => cases t <;> rfl
  | cons Q ops ih =>
    cases t with
    | zero => rfl
    | succ t =>
      show Q.payload.toList ++ payloads (ops.modify t _) = _
      rw [ih t]
      rfl

section
variable {s s' : I2c}

/-- a buffer that moves into a new operation -/
theorem owners_start {payload : Option Buf} (hp : ∀ b ∈ payload, b ∈ s.bufs) (dir : Dir)
    (address flags length : Nat) (accepted : Bool) :
    (s.start dir address flags payload length accepted).owners.Perm s.owners := by
  have hsplit : payloads (s.start dir address flags payload length accepted).ops =
      payloads s.ops ++ payload.toList := by
    show (s.ops ++ [_]).flatMap _ = _
    rw [List.flatMap_append, List.flatMap_singleton]
    rfl
  unfold owners
  rw [hsplit]
  cases payload with
  | none =>
    show (s.bufs ++ (payloads s.ops ++ [])).Perm _
    rw [List.append_nil]
  | some b =>
    show (s.bufs.erase b ++ (payloads s.ops ++ [b])).Perm _
    rw [← List.append_assoc]
    refine List.perm_append_comm.trans ?_
    show (b :: s.bufs.erase b ++ payloads s.ops).Perm _
    exact (List.perm_cons_erase (hp b rfl)).symm.append_right _

theorem invoke_eq {t : Nat} {P : Operation} (hP : s.ops[t]? = some P) (status : Int) :
    (s.complete t).invoke t status =
      { s.complete t with
        ops := s.ops.modify t fun P => { P with payload := none }
        bufs := s.bufs ++ P.payload.toList
        completed := s.completed ++ [⟨t, status, P.payload⟩] } := by
  have hP' : (s.complete t).ops[t]? = some P := hP
  unfold invoke
  rw [hP']
  rfl

/-- a buffer that moves into a callback -/
theorem owners_invoke {t : Nat} {P : Operation} (hP : s.ops[t]? = some P) (status : Int) :
    ((s.complete t).invoke t status).owners.Perm s.owners := by
  rw [invoke_eq hP]
  show (s.bufs ++ P.payload.toList ++ payloads _).Perm (s.bufs ++ payloads s.ops)
  rw [List.append_assoc]
  exact (payloads_take hP).append_left _

/-! ## custody -/

/-- `starts` are the buffers that the operations so far were given, in order, `calls` the completions
so far with their status, and `freed` the buffers that were freed. -/
structure Custody (s : I2c) (starts : List (Option Buf)) (calls : List (Nat × Int)) (freed : List Buf) :
    Prop where
  owned : ∀ b, s.owners.count b + freed.count b = if b < s.nextBuf then 1 else 0
  number : s.ops.length = starts.length
  pending : ∀ x ∈ s.pending, x.op < s.ops.length ∧ s.payload x.op = x.payload ∧
    starts[x.op]? = some x.payload
  holder : ∀ t b, s.payload t = some b → ∃ x ∈ s.pending, x.op = t
  calls : s.completed.map (fun c => (c.op, c.status)) = calls
  own : ∀ c ∈ s.completed, starts[c.op]? = some c.payload
  once : (s.completed.map Completion.op).Nodup
  called : ∀ t, t ∈ s.completed.map Completion.op ↔ t < s.ops.length ∧ ∀ x ∈ s.pending, x.op ≠ t

theorem Custody.init : Custody {} [] [] [] :=
  ⟨fun b => rfl, rfl, fun _ h => (by cases h), fun _ _ h => (by cases h), rfl, fun _ h => (by cases h),
    List.nodup_nil, fun t => ⟨fun h => (by cases h), fun h => (by cases h.1)⟩⟩

variable {starts : List (Option Buf)} {calls : List (Nat × Int)} {freed : List Buf}

/-- calls that move no buffer and leave transactions and completions alone -/
theorem Custody.of_same (h : Custody s starts calls freed) (hown : s'.owners = s.owners)
    (hnext : s'.nextBuf = s.nextBuf) (hpay : ∀ t, s'.payload t = s.payload t)
    (hlen : s'.ops.length = s.ops.length) (hpend : s'.pending = s.pending)
    (hcomp : s'.completed = s.completed) : Custody s' starts calls freed := by
  refine ⟨fun b => ?_, hlen.trans h.number, fun x hx => ?_, fun t b ht => ?_, ?_, ?_, ?_, fun t => ?_⟩
  · rw [hown, hnext]
    exact h.owned b
  · rw [hpend] at hx
    rw [hlen, hpay]
    exact h.pending x hx
  · rw [hpay] at ht
    rw [hpend]
    exact h.holder t b ht
  · rw [hcomp]
    exact h.calls
  · rw [hcomp]
    exact h.own
  · rw [hcomp]
    exact h.once
  · rw [hcomp, hlen, hpend]
    exact h.called t

theorem Custody.mkbuf (h : Custody s starts calls freed) :
    Custody { s with bufs := s.nextBuf :: s.bufs, nextBuf := s.nextBuf + 1 } starts calls freed := by
  refine ⟨fun b => ?_, h.number, h.pending, h.holder, h.calls, h.own, h.once, h.called⟩
  have hb := h.owned b
  show (s.nextBuf :: s.owners).count b + _ = if b < s.nextBuf + 1 then 1 else 0
  rw [List.count_cons]
  obtain hlt | he | hgt := Nat.lt_trichotomy b s.nextBuf
  · have hne : s.nextBuf ≠ b := Ne.symm (Nat.ne_of_lt hlt)
    rw [if_pos hlt] at hb
    rw [if_neg (by simpa using hne), if_pos (Nat.lt_succ_of_lt hlt)]
    exact hb
  · rw [if_neg (Nat.not_lt_of_le (Nat.le_of_eq he.symm))] at hb
    rw [if_pos (by simp [he]), if_pos (he ▸ Nat.lt_succ_self _)]
    omega
  · have hne : s.nextBuf ≠ b := Nat.ne_of_lt hgt
    rw [if_neg (Nat.not_lt_of_lt hgt)] at hb
    rw [if_neg (by simpa using hne), if_neg (Nat.not_lt_of_le hgt)]
    exact hb

theorem Custody.freebuf (h : Custody s starts calls freed) {b : Buf} (hb : b ∈ s.bufs) :
    Custody { s with bufs := s.bufs.erase b } starts calls (freed ++ [b]) := by
  refine ⟨fun c => ?_, h.number, h.pending, h.holder, h.calls, h.own, h.once, h.called⟩
  have hc := h.owned c
  have hperm : (b :: (s.bufs.erase b ++ payloads s.ops)).Perm s.owners :=
    (List.perm_cons_erase hb).symm.append_right _
  rw [← hperm.count_eq, List.count_cons] at hc
  show (s.bufs.erase b ++ payloads s.ops).count c + (freed ++ [b]).count c = _
  have hf : (freed ++ [b]).count c = freed.count c + if (b == c) = true then 1 else 0 := by
    rw [List.count_append, List.count_singleton]
  have hnext : (if c < s.nextBuf then 1 else 0) =
      (s.bufs.erase b ++ payloads s.ops).count c + (freed ++ [b]).count c := by
    rw [← hc, hf]
    omega
  exact hnext.symm

theorem Custody.start (h : Custody s starts calls freed) {payload : Option Buf}
    (hp : ∀ b ∈ payload, b ∈ s.bufs) (dir : Dir) (address flags length : Nat) :
    Custody (s.start dir address flags payload length true) (starts ++ [payload]) calls freed := by
  have hlen : (s.start dir address flags payload length true).ops.length = s.ops.length + 1 := by
    show (s.ops ++ [_]).length = _
    rw [List.length_append, List.length_singleton]
  have hold : ∀ t, t < s.ops.length →
      (s.start dir address flags payload length true).payload t = s.payload t := by
    intro t ht
    show ((s.ops ++ [_])[t]?).bind _ = _
    rw [List.getElem?_append_left ht]
    rfl
  have hnew : (s.start dir address flags payload length true).payload s.ops.length = payload := by
    show ((s.ops ++ [_])[s.ops.length]?).bind _ = _
    rw [List.getElem?_concat_length]
    rfl
  have hstarts : ∀ {t p}, starts[t]? = some p → (starts ++ [payload])[t]? = some p :=
    fun ht => getElem?_push.mpr (Or.inl ht)
  refine ⟨fun b => ?_, ?_, fun x hx => ?_, fun t b ht => ?_, h.calls, fun c hc => hstarts (h.own c hc),
    h.once, fun t => ?_⟩
  · rw [(owners_start hp dir address flags length true).count_eq]
    exact h.owned b
  · rw [hlen, h.number, List.length_append, List.length_singleton]
  · obtain hx | hx := List.mem_append.mp hx
    · obtain ⟨hlt, hpay, hst⟩ := h.pending x hx
      rw [hold _ hlt, hlen]
      exact ⟨by omega, hpay, hstarts hst⟩
    · rw [List.mem_singleton.mp hx]
      refine ⟨by rw [hlen]; exact Nat.lt_succ_self _, hnew, ?_⟩
      exact getElem?_push.mpr (Or.inr ⟨h.number, rfl⟩)
  · by_cases hlt : t < s.ops.length
    · rw [hold t hlt] at ht
      obtain ⟨x, hx, he⟩ := h.holder t b ht
      exact ⟨x, List.mem_append_left _ hx, he⟩
    · by_cases he : t = s.ops.length
      · exact ⟨_, List.mem_append_right _ (List.mem_singleton_self _), he.symm⟩
      · unfold I2c.payload at ht
        rw [List.getElem?_eq_none (by omega)] at ht
        cases ht
  · show t ∈ s.completed.map Completion.op ↔ _ ∧ ∀ x ∈ s.pending ++ [_], x.op ≠ t
    rw [h.called t, hlen]
    constructor
    · intro ht
      obtain ⟨hlt, hno⟩ := ht
      refine ⟨by omega, fun x hx => ?_⟩
      obtain hx | hx := List.mem_append.mp hx
      · exact hno x hx
      · rw [List.mem_singleton.mp hx]
        show s.ops.length ≠ t
        omega
    · intro ht
      obtain ⟨hlt, hno⟩ := ht
      refine ⟨?_, fun x hx => hno x (List.mem_append_left _ hx)⟩
      have hne : s.ops.length ≠ t := hno _ (List.mem_append_right _ (List.mem_singleton_self _))
      omega

theorem Custody.invoke (h : Custody s starts calls freed) {t : Nat} (ht : ∃ x ∈ s.pending, x.op = t)
    (status : Int) :
    Custody ((s.complete t).invoke t status) starts (calls ++ [(t, status)]) freed := by
  obtain ⟨x, hx, rfl⟩ := ht
  obtain ⟨hlt, hpay, hst⟩ := h.pending x hx
  obtain ⟨P, hP⟩ : ∃ P, s.ops[x.op]? = some P := ⟨_, List.getElem?_eq_getElem hlt⟩
  have hPp : P.payload = x.payload := by
    unfold I2c.payload at hpay
    rw [hP] at hpay
    exact hpay
  have hlen : ((s.complete x.op).invoke x.op status).ops.length = s.ops.length := by
    rw [invoke_eq hP]
    exact List.length_modify ..
  have hold : ∀ u, u ≠ x.op → ((s.complete x.op).invoke x.op status).payload u = s.payload u := by
    intro u hu
    rw [invoke_eq hP]
    show ((s.ops.modify x.op _)[u]?).bind _ = _
    rw [List.getElem?_modify_ne _ _ (Ne.symm hu)]
    rfl
  have hgone : ((s.complete x.op).invoke x.op status).payload x.op = none := by
    rw [invoke_eq hP]
    show ((s.ops.modify x.op _)[x.op]?).bind _ = _
    rw [List.getElem?_modify_eq, hP]
    rfl
  have hpend : ∀ y, y ∈ ((s.complete x.op).invoke x.op status).pending ↔ y ∈ s.pending ∧ y.op ≠ x.op := by
    intro y
    rw [pending_invoke, List.mem_filter]
    exact and_congr Iff.rfl decide_eq_true_iff
  have hcomp : ((s.complete x.op).invoke x.op status).completed =
      s.completed ++ [⟨x.op, status, P.payload⟩] := by rw [invoke_eq hP]
  refine ⟨fun b => ?_, hlen.trans h.number, fun y hy => ?_, fun u b hu => ?_, ?_, fun c hc => ?_, ?_,
    fun u => ?_⟩
  · rw [(owners_invoke hP status).count_eq, show ((s.complete x.op).invoke x.op status).nextBuf = s.nextBuf by
      rw [invoke_eq hP]; rfl]
    exact h.owned b
  · obtain ⟨hy, hne⟩ := (hpend y).mp hy
    rw [hlen, hold _ hne]
    exact h.pending y hy
  · have hne : u ≠ x.op := by
      intro he
      rw [he, hgone] at hu
      cases hu
    rw [hold u hne] at hu
    obtain ⟨y, hy, he⟩ := h.holder u b hu
    exact ⟨y, (hpend y).mpr ⟨hy, he ▸ hne⟩, he⟩
  · rw [hcomp, List.map_append, h.calls]
    rfl
  · rw [hcomp] at hc
    obtain hc | hc := List.mem_append.mp hc
    · exact h.own c hc
    · rw [List.mem_singleton.mp hc, hPp]
      exact hst
  · rw [hcomp, List.map_append]
    refine List.nodup_append.mpr ⟨h.once, List.nodup_singleton _, fun u hu v hv huv => ?_⟩
    have hvx : v = x.op := List.mem_singleton.mp hv
    exact ((h.called u).mp hu).2 x hx (huv.trans hvx).symm
  · rw [hcomp, List.map_append, List.mem_append, h.called u, hlen]
    show _ ∨ u ∈ [x.op] ↔ _
    rw [List.mem_singleton]
    constructor
    · intro hu
      obtain ⟨hult, hno⟩ | rfl := hu
      · exact ⟨hult, fun y hy => hno y ((hpend y).mp hy).1⟩
      · exact ⟨hlt, fun y hy => ((hpend y).mp hy).2⟩
    · intro hu
      obtain ⟨hult, hno⟩ := hu
      by_cases he : u = x.op
      · exact Or.inr he
      · refine Or.inl ⟨hult, fun y hy hyu => ?_⟩
        exact hno y ((hpend y).mpr ⟨hy, fun hyx => he (hyu.symm.trans hyx)⟩) hyu

/-- **One call** keeps custody. -/
theorem Custody.step (h : Custody s starts calls freed) {o : I2cOp} (hg : o.Granted)
    (hs : s.step o = some s') :
    Custody s' (starts ++ o.started.toList) (calls ++ o.called.toList) (freed ++ o.freed.toList) := by
  cases step_cases hs with
  | mkbuf =>
    simpa [I2cOp.started, I2cOp.called, I2cOp.freed] using h.mkbuf
  | freebuf b hb =>
    simpa [I2cOp.started, I2cOp.called, I2cOp.freed] using h.freebuf hb
  | write address flags payload length accepted hp =>
    cases hg
    simpa [I2cOp.started, I2cOp.called, I2cOp.freed, I2c.write] using h.start hp .write address flags length
  | read address flags target length accepted hp =>
    cases hg
    simpa [I2cOp.started, I2cOp.called, I2cOp.freed, I2c.read] using h.start hp .read address flags length
  | copy t ht =>
    have hsame : Custody { s with handles := t :: s.handles } starts calls freed :=
      h.of_same rfl rfl (fun _ => rfl) rfl rfl rfl
    simpa [I2cOp.started, I2cOp.called, I2cOp.freed] using hsame
  | drop t ht =>
    have hsame : Custody { s with handles := s.handles.erase t } starts calls freed :=
      h.of_same rfl rfl (fun _ => rfl) rfl rfl rfl
    simpa [I2cOp.started, I2cOp.called, I2cOp.freed] using hsame
  | invoke t status ht =>
    simpa [I2cOp.started, I2cOp.called, I2cOp.freed] using h.invoke ht status
  | finish t =>
    have hsame : Custody (s.finish t) starts calls freed := by
      refine h.of_same ?_ rfl (fun u => ?_) (List.length_modify ..) rfl rfl
      · show s.bufs ++ payloads (s.ops.modify t _) = _
        rw [payloads_reset]
        rfl
      · show ((s.ops.modify t _)[u]?).bind _ = _
        rw [List.getElem?_modify]
        unfold I2c.payload
        cases s.ops[u]? with
        | none => rfl
        | some P =>
          show Operation.payload (if t = u then _ else P) = P.payload
          split <;> rfl
    simpa [I2cOp.started, I2cOp.called, I2cOp.freed] using hsame

end

theorem filterMap_snoc {α β : Type} (f : α → Option β) (l : List α) (a : α) :
    (l ++ [a]).filterMap f = l.filterMap f ++ (f a).toList := by
  rw [List.filterMap_append]
  cases hf : f a with
  | none => rw [List.filterMap_cons_none hf]; rfl
  | some b => rw [List.filterMap_cons_some hf]; rfl

theorem custody {os : List I2cOp} (hg : ∀ o ∈ os, o.Granted) {s : I2c}
    (hr : exec I2c.step {} os = some s) :
    Custody s (os.filterMap I2cOp.started) (os.filterMap I2cOp.called) (os.filterMap I2cOp.freed) := by
  refine history (P := fun os s => (∀ o ∈ os, o.Granted) → Custody s (os.filterMap I2cOp.started)
    (os.filterMap I2cOp.called) (os.filterMap I2cOp.freed)) (fun _ => Custody.init)
    (fun os u o t _ ih hs hg => ?_) hr hg
  have h := ih fun p hp => hg p (List.mem_append_left _ hp)
  rw [filterMap_snoc, filterMap_snoc, filterMap_snoc]
  exact h.step (hg o (List.mem_append_right _ (List.mem_singleton_self o))) hs

end I2c

/-! ## every run -/

/-- the calls on operations and buffers in a run -/
def i2cOps (as : List Act) : List I2cOp := as.filterMap Act.i2cOp

/-- What a run has made of buffers and operations: each buffer that was made has one owner, or was
freed; the kernel uses the payload of a living operation; each operation that is not in progress in the
kernel has been called back once, with the buffer it was given and the status; and an operation owns
itself, and lives without handles, only until its callback has returned. -/
structure BufferOwnership (as : List Act) (w : World) : Prop where
  owner : ∀ b, w.i2c.owners.count b + ((i2cOps as).filterMap I2cOp.freed).count b =
    if b < w.i2c.nextBuf then 1 else 0
  kernel : ∀ x ∈ w.i2c.pending, ∃ P, w.i2c.ops[x.op]? = some P ∧ P.self = true ∧ P.payload = x.payload
  holder : ∀ t P b, w.i2c.ops[t]? = some P → P.payload = some b → ∃ x ∈ w.i2c.pending, x.op = t
  calls : w.i2c.completed.map (fun c => (c.op, c.status)) = (i2cOps as).filterMap I2cOp.called
  own : ∀ c ∈ w.i2c.completed, ((i2cOps as).filterMap I2cOp.started)[c.op]? = some c.payload
  once : (w.i2c.completed.map Completion.op).Nodup
  called : ∀ t, t ∈ w.i2c.completed.map Completion.op ↔
    t < ((i2cOps as).filterMap I2cOp.started).length ∧ ∀ x ∈ w.i2c.pending, x.op ≠ t
  self : ∀ t P, w.i2c.ops[t]? = some P → (P.self = true ↔ w.InProgress t)
  released : ∀ t, w.i2c.Live t ↔ t ∈ w.i2c.handles ∨ w.InProgress t

section
variable {w : World} {as : List Act}

theorem busy_run (hg : ∀ a ∈ as, ∀ o ∈ a.i2cOp, o.Granted) (hr : World.runs as = some w) :
    w.i2c.Life w.completing ∧ w.i2c.Busy w.completing := by
  refine invariant_of_mem (I := fun w : World => w.i2c.Life w.completing ∧ w.i2c.Busy w.completing)
    (fun v a v' h ha hs => ⟨life_step h.1 hs, ?_⟩) hg ⟨I2c.Life.init, fun t ht => by cases ht⟩ hr
  cases a with
  | i2c o => exact (I2c.busy_step h.1 h.2 (step_i2c hs) (completing_i2c hs)).mpr (ha o rfl)
  | _ =>
    rw [(step_frames hs).i2c rfl, completing_other hs rfl]
    exact h.2

/-- **Buffers and operations**, in every run in which the kernel accepts each transaction. -/
theorem buffer_ownership (as : List Act) (hg : ∀ a ∈ as, ∀ o ∈ a.i2cOp, o.Granted) (w : World)
    (hr : World.runs as = some w) : BufferOwnership as w := by
  have hops : ∀ o ∈ i2cOps as, o.Granted := by
    intro o ho
    obtain ⟨a, ha, hao⟩ := List.mem_filterMap.mp ho
    exact hg a ha o hao
  have hc := I2c.custody hops (i2c_run hr)
  obtain ⟨hlife, hbusy⟩ := busy_run hg hr
  have hself : ∀ t, w.i2c.Holds t ↔ w.InProgress t := by
    refine fun t => ⟨hbusy t, fun h => ?_⟩
    obtain ⟨x, hx, rfl⟩ | hst := h
    · exact (hlife.pending x hx).2
    · exact hlife.running t hst
  refine ⟨hc.owned, fun x hx => ?_, fun t P b hP hb => ?_, hc.calls, hc.own, hc.once, fun t => ?_,
    fun t P hP => ?_, fun t => ?_⟩
  · obtain ⟨P, hP, hPself⟩ := Option.map_eq_some_iff.mp (hlife.pending x hx).2
    refine ⟨P, hP, hPself, ?_⟩
    have hpay := (hc.pending x hx).2.1
    unfold I2c.payload at hpay
    rw [hP] at hpay
    exact hpay
  · refine hc.holder t b ?_
    unfold I2c.payload
    rw [hP]
    exact hb
  · rw [hc.called t, hc.number]
  · rw [← hself t]
    unfold I2c.Holds
    rw [hP]
    exact Option.some_inj.symm
  · rw [← hself t]
    unfold I2c.Live I2c.Holds
    rw [Option.map_eq_some_iff]

end

/-- a write whose callback passes its buffer on to a read, and frees that of a second write -/
def passedOnRun : List Act :=
  [.i2c .mkbuf, .i2c .mkbuf, .i2c (.write 0x280 5 (some 0) 2 true), .i2c (.write 0x280 1 (some 1) 1 true),
   .i2c (.drop 0), .k_wait_callback, .i2c (.invoke 1 0), .i2c (.freebuf 1), .i2c (.finish 1),
   .i2c (.invoke 0 0), .i2c (.read 0x280 6 (some 0) 2 true), .i2c (.finish 0), .i2c (.invoke 2 3),
   .i2c (.finish 2), .ret]

theorem buffer_ownership_passed : ∃ w, World.runs passedOnRun = some w ∧ BufferOwnership passedOnRun w :=
  ⟨_, rfl, buffer_ownership passedOnRun (by decide) _ rfl⟩

end Storm
end Pharoah
