import Pharoah.Lib.Leases
import Pharoah.Storm.Parts

/-!
# UDP sockets: who owns an id

The kernel leases ids to sockets; a socket believes to own its id while its `self` is set.  `open`
and `close` keep to that, `sendto` does not look at `self`.

* `Udp.construct_owner`   what the syscalls of an `open` do to the ids, whatever the kernel answers;
* `Udp.Leased`            a socket with `self` set owns its id, a closed one does not;
* `SendsOpen`             the condition: a socket that is sent through has `self` set;
* `Udp.Tells`             a step logs syscalls of owners only, unless it breaks the condition.

`ids_owned_iff`: **every syscall that carries an id is made by its owner exactly if nothing is sent
through a closed socket**.
-/

namespace Pharoah
namespace Storm

open Lts

namespace Udp

/-- the id of a socket whose `self` is set -/
def claim (u : Udp) : Nat → Option Int32 := claims UDPSocket.id UDPSocket.self u.objs

theorem claim_eq {u : Udp} {t : Nat} {id : Int32} :
    u.claim t = some id ↔ ∃ S, u.objs[t]? = some S ∧ S.self = true ∧ S.id = id := claims_eq

theorem owner_setSock (u : Udp) (id : Int32) (k : Option KSocket) :
    (u.setSock id k).owner = Function.update u.owner id (k.map KSocket.owner) := by
  funext i
  show (Function.update u.socks id k i).map KSocket.owner = _
  by_cases hi : i = id
  · subst hi
    rw [Function.update_self, Function.update_self]
  · rw [Function.update_of_ne hi, Function.update_of_ne hi]
    rfl

/-- The log has grown by syscalls of owners only. -/
def LogsOwn (u u' : Udp) : Prop := ∃ l, u'.log = u.log ++ l ∧ ∀ e ∈ l, e.owner = some e.issuer

theorem LogsOwn.refl (u : Udp) : LogsOwn u u := ⟨[], (List.append_nil _).symm, fun _ h => (by cases h)⟩

theorem LogsOwn.trans {u u' u'' : Udp} (h : LogsOwn u u') (h' : LogsOwn u' u'') : LogsOwn u u'' := by
  obtain ⟨l, hl, ho⟩ := h
  obtain ⟨l', hl', ho'⟩ := h'
  refine ⟨l ++ l', by rw [hl', hl, List.append_assoc], fun e he => ?_⟩
  obtain he | he := List.mem_append.mp he
  · exact ho e he
  · exact ho' e he

theorem logsOwn_issue {u : Udp} {t : Nat} {c : Syscall} (h : u.owner c.id = some t) :
    LogsOwn u (u.issue t c) :=
  ⟨[⟨t, c, u.owner c.id⟩], rfl, fun e he => by rw [List.mem_singleton.mp he]; exact h⟩

/-! ## opening -/

section
variable (u : Udp) (this : Nat) (port : UInt16) (r : Replies)

/-- the constructor of `this` has kept to its own id -/
theorem construct_logs : LogsOwn u (u.construct this port r).1 := by
  unfold construct
  split
  · exact LogsOwn.refl u
  · have h1 : LogsOwn u ((u.setSock r.create (some { owner := this })).issue this (.bind r.create port)) := by
      apply logsOwn_issue (u := u.setSock r.create (some { owner := this }))
      rw [owner_setSock]
      exact Function.update_self ..
    dsimp only
    split
    · exact h1
    · refine h1.trans ?_
      have h2 : LogsOwn (((u.setSock r.create (some { owner := this })).issue this
          (.bind r.create port)).setSock r.create (some { owner := this, port := some port }))
          ((((u.setSock r.create (some { owner := this })).issue this
          (.bind r.create port)).setSock r.create (some { owner := this, port := some port })).issue
          this (.set_recvfrom r.create this)) := by
        apply logsOwn_issue
        rw [owner_setSock]
        exact Function.update_self ..
      split
      · exact h2
      · exact h2

/-- no id, or the one that the kernel has allocated for `this` -/
theorem construct_owner : (u.construct this port r).2.1 = r.create ∧
    ((u.construct this port r).1.owner = u.owner ∧ (u.construct this port r).2.2 = false ∨
      r.create ≠ -1 ∧
        (u.construct this port r).1.owner = Function.update u.owner r.create (some this)) := by
  have twice : ∀ (v : Udp) (k : KSocket), v.owner = Function.update u.owner r.create (some this) →
      k.owner = this →
      (v.setSock r.create (some k)).owner = Function.update u.owner r.create (some this) := by
    intro v k hv hk
    rw [owner_setSock, hv, Function.update_idem]
    exact congrArg (fun o => Function.update u.owner r.create (some o)) hk
  have h1 : (u.setSock r.create (some { owner := this })).owner =
      Function.update u.owner r.create (some this) := owner_setSock ..
  unfold construct
  split
  · exact ⟨rfl, Or.inl ⟨rfl, rfl⟩⟩
  · next hc =>
    dsimp only
    split
    · exact ⟨rfl, Or.inr ⟨hc, h1⟩⟩
    · have h2 := twice ((u.setSock r.create (some { owner := this })).issue this (.bind r.create port))
        { owner := this, port := some port } h1 rfl
      split
      · exact ⟨rfl, Or.inr ⟨hc, h2⟩⟩
      · exact ⟨rfl, Or.inr ⟨hc, twice _ { owner := this, port := some port, recv := some this } h2 rfl⟩⟩

theorem open_owner (callback : Fn) :
    (u.open_ port callback r).owner = (u.construct u.objs.length port r).1.owner := rfl

theorem open_logs (callback : Fn) : LogsOwn u (u.open_ port callback r) :=
  construct_logs u u.objs.length port r

end

/-! ## sockets and ids -/

/-- A socket with `self` set owns its id, and one that user code has closed does not. -/
structure Leased (u : Udp) : Prop where
  held : Held u.owner u.claim
  closed : ∀ t S, t ∈ u.handles → u.objs[t]? = some S → S.self = false → u.owner S.id ≠ some t
  handles : ∀ t ∈ u.handles, t < u.objs.length

section
variable {u u' : Udp}

theorem Leased.init : Leased {} :=
  ⟨fun _ _ h => (by cases h), fun _ _ h => (by cases h), fun _ h => (by cases h)⟩

theorem Leased.open_ (h : Leased u) {r : Replies}
    (hr : r.create = -1 ∨ (u.socks r.create).isNone = true) (port : UInt16) (callback : Fn) :
    Leased (u.open_ port callback r) := by
  obtain ⟨hid, howner⟩ := construct_owner u u.objs.length port r
  have hfree : r.create ≠ -1 → u.owner r.create = none := fun hne => by
    obtain hr | hr := hr
    · exact absurd hr hne
    · show (u.socks r.create).map KSocket.owner = none
      rw [Option.isNone_iff_eq_none.mp hr]
      rfl
  have hlen : (u.open_ port callback r).objs.length = u.objs.length + 1 := by
    show (u.objs ++ [_]).length = _
    rw [List.length_append, List.length_singleton]
  refine ⟨?_, fun t S ht hS hself => ?_, fun t ht => ?_⟩
  · rw [open_owner]
    cases hok : (u.construct u.objs.length port r).2.2 with
    | false =>
      have hclaim : (u.open_ port callback r).claim = u.claim := claims_push_off hok
      rw [hclaim]
      obtain ⟨ho, -⟩ | ⟨hne, ho⟩ := howner
      · rw [ho]
        exact h.held
      · rw [ho]
        exact h.held.occupy (hfree hne)
    | true =>
      have hclaim : (u.open_ port callback r).claim =
          Function.update u.claim u.objs.length (some r.create) := by
        rw [← hid]
        exact claims_push hok
      rw [hclaim]
      obtain ⟨-, hf⟩ | ⟨hne, ho⟩ := howner
      · rw [hok] at hf
        cases hf
      · rw [ho]
        exact h.held.grant (hfree hne)
  · -- the new socket is no closed one, and the others are numbered below
    have hold : t ∈ u.handles := by
      change t ∈ (if (u.construct u.objs.length port r).2.2 = true then u.objs.length :: u.handles
        else u.handles) at ht
      split at ht
      · next hok =>
        obtain rfl | ht := List.mem_cons.mp ht
        · change (u.objs ++ [_])[u.objs.length]? = some S at hS
          rw [List.getElem?_concat_length] at hS
          cases hS
          rw [hok] at hself
          cases hself
        · exact ht
      · exact ht
    have hlt := h.handles t hold
    change (u.objs ++ [_])[t]? = some S at hS
    rw [List.getElem?_append_left hlt] at hS
    rw [open_owner]
    have hno := h.closed t S hold hS hself
    obtain ⟨ho, -⟩ | ⟨hne, ho⟩ := howner
    · rwa [ho]
    · rw [ho]
      by_cases hi : S.id = r.create
      · rw [hi, Function.update_self]
        exact fun e => Nat.ne_of_gt hlt (Option.some.inj e)
      · rwa [Function.update_of_ne hi]
  · rw [hlen]
    change t ∈ (if _ then u.objs.length :: u.handles else u.handles) at ht
    split at ht
    · obtain rfl | ht := List.mem_cons.mp ht
      · omega
      · have hlt := h.handles t ht
        omega
    · have hlt := h.handles t ht
      omega

theorem close_eq {t : Nat} {S : UDPSocket} (hS : u.objs[t]? = some S) :
    u.close t = if S.self then ((u.issue t (.close S.id)).setSock S.id none).resetSelf t else u := by
  unfold close
  rw [hS]

theorem close_none {t : Nat} (hS : u.objs[t]? = none) : u.close t = u := by
  unfold close
  rw [hS]

theorem Leased.close (h : Leased u) (t : Nat) : Leased (u.close t) ∧ LogsOwn u (u.close t) := by
  cases hS : u.objs[t]? with
  | none =>
    rw [close_none hS]
    exact ⟨h, LogsOwn.refl u⟩
  | some S =>
    rw [close_eq hS]
    split
    · next hself =>
      have hclaim : u.claim t = some S.id := claim_eq.mpr ⟨S, hS, hself, rfl⟩
      have howner : (((u.issue t (.close S.id)).setSock S.id none).resetSelf t).owner =
          Function.update u.owner S.id none := owner_setSock (u.issue t (.close S.id)) S.id none
      refine ⟨⟨?_, fun v T hv hT hTself => ?_, fun v hv => ?_⟩, ?_⟩
      · rw [howner]
        have hc : (((u.issue t (.close S.id)).setSock S.id none).resetSelf t).claim =
            Function.update u.claim t none := claims_reset (fun _ => rfl) t
        rw [hc]
        exact h.held.revoke hclaim
      · rw [howner]
        change (u.objs.modify t _)[v]? = some T at hT
        by_cases hi : T.id = S.id
        · rw [hi, Function.update_self]
          exact fun e => by cases e
        · rw [Function.update_of_ne hi]
          rw [List.getElem?_modify, Option.map_eq_map, Option.map_eq_some_iff] at hT
          obtain ⟨T', hT', rfl⟩ := hT
          split at hTself
          · next htv =>
            subst htv
            rw [hS] at hT'
            cases hT'
            rw [if_pos rfl] at hi
            exact absurd rfl hi
          · next htv =>
            rw [if_neg htv]
            exact h.closed v T' hv hT' hTself
      · show v < (u.objs.modify t _).length
        rw [List.length_modify]
        exact h.handles v hv
      · exact logsOwn_issue (h.held t S.id hclaim)
    · exact ⟨h, LogsOwn.refl u⟩

end

/-- `self` of the socket is set. -/
def IsOpen (u : Udp) (t : Nat) : Prop := (u.objs[t]?).map UDPSocket.self = some true

instance (u : Udp) (t : Nat) : Decidable (u.IsOpen t) := inferInstanceAs (Decidable (_ = _))

end Udp

/-- the socket that a call sends through -/
def UdpOp.sends : UdpOp → Option Nat
  | .sendto t _ _ _ _ _ => some t
  | .sendtoString t _ _ _ _ => some t
  | _ => none

namespace Udp

/-- What is sent is sent through a socket that is open. -/
def SendsOpen (u : Udp) (o : UdpOp) : Prop := ∀ t ∈ o.sends, u.IsOpen t

/-- A step logs syscalls of owners, or it sends through a closed socket and logs that. -/
def Tells (u : Udp) (o : UdpOp) (u' : Udp) : Prop :=
  u.SendsOpen o ∧ LogsOwn u u' ∨
    ¬ u.SendsOpen o ∧ ∃ e, u'.log = u.log ++ [e] ∧ e.owner ≠ some e.issuer

section
variable {u u' : Udp}

theorem Tells.of_logs {o : UdpOp} (h : LogsOwn u u') (ho : o.sends = none) : Tells u o u' :=
  Or.inl ⟨fun t ht => (by rw [ho] at ht; cases ht), h⟩

theorem sendto_objs (u : Udp) (t : Nat) (addr : String) (port : UInt16) (payload : List UInt8)
    (length : Nat) (reply : Int32) : (u.sendto t addr port payload length reply).1.objs = u.objs ∧
      (u.sendto t addr port payload length reply).1.handles = u.handles ∧
      (u.sendto t addr port payload length reply).1.socks = u.socks := by
  unfold sendto
  split <;> exact ⟨rfl, rfl, rfl⟩

theorem Leased.sendto (h : Leased u) (t : Nat) (addr : String) (port : UInt16) (payload : List UInt8)
    (length : Nat) (reply : Int32) : Leased (u.sendto t addr port payload length reply).1 := by
  obtain ⟨ho, hh, hs⟩ := sendto_objs u t addr port payload length reply
  obtain ⟨h1, h2, h3⟩ := h
  have howner : (u.sendto t addr port payload length reply).1.owner = u.owner := by
    unfold owner
    rw [hs]
  refine ⟨?_, ?_, ?_⟩
  · rw [howner]
    unfold claim
    rw [ho]
    exact h1
  · rw [hh, ho, howner]
    exact h2
  · rw [hh, ho]
    exact h3

/-- `sendto` carries the id of the socket whether it is open or not -/
theorem sendto_tells (h : Leased u) {o : UdpOp} {t : Nat} (ho : o.sends = some t) (ht : t ∈ u.handles)
    (addr : String) (port : UInt16) (payload : List UInt8) (length : Nat) (reply : Int32) :
    Tells u o (u.sendto t addr port payload length reply).1 := by
  obtain ⟨S, hS⟩ : ∃ S, u.objs[t]? = some S := ⟨_, List.getElem?_eq_getElem (h.handles t ht)⟩
  have heq : (u.sendto t addr port payload length reply).1 =
      u.issue t (.sendto S.id payload length addr port) := by
    unfold Udp.sendto
    rw [hS]
  rw [heq]
  cases hself : S.self with
  | true =>
    refine Or.inl ⟨fun v hv => ?_, logsOwn_issue (h.held t _ (claim_eq.mpr ⟨_, hS, hself, rfl⟩))⟩
    rw [ho] at hv
    cases hv
    unfold IsOpen
    rw [hS]
    exact congrArg some hself
  | false =>
    refine Or.inr ⟨fun hopen => ?_, _, rfl, h.closed t _ ht hS hself⟩
    have hno := hopen t ho
    unfold IsOpen at hno
    rw [hS, Option.map_some, hself] at hno
    cases hno

/-- **One call** keeps the ids leased, and tells. -/
theorem Leased.step (h : Leased u) {o : UdpOp} (hs : u.step o = some u') : Leased u' ∧ Tells u o u' := by
  cases step_cases hs with
  | open_ port callback r hr =>
    exact ⟨h.open_ hr port callback, .of_logs (open_logs u port r callback) rfl⟩
  | close t ht => exact ⟨(h.close t).1, .of_logs (h.close t).2 rfl⟩
  | sendto t addr port payload length reply ht =>
    exact ⟨h.sendto t addr port payload length reply, sendto_tells h rfl ht _ _ _ _ _⟩
  | sendtoString t addr port payload reply ht =>
    exact ⟨h.sendto t addr port payload payload.length reply, sendto_tells h rfl ht _ _ _ _ _⟩
  | copy t ht =>
    refine ⟨⟨h.held, fun v S hv => ?_, fun v hv => ?_⟩, .of_logs (.refl u) rfl⟩
    · obtain rfl | hv := List.mem_cons.mp hv
      · exact h.closed _ S ht
      · exact h.closed v S hv
    · obtain rfl | hv := List.mem_cons.mp hv
      · exact h.handles _ ht
      · exact h.handles v hv
  | drop t ht =>
    exact ⟨⟨h.held, fun v S hv => h.closed v S (List.mem_of_mem_erase hv),
      fun v hv => h.handles v (List.mem_of_mem_erase hv)⟩, .of_logs (.refl u) rfl⟩

end
end Udp

/-! ## the sockets of a program -/

/-- What a step sends it sends through a socket that is open. -/
def SendsOpen (w : World) (a : Act) : Prop := ∀ o ∈ a.udpOp, w.udp.SendsOpen o

/-- Every syscall so far that carried an id was made by the owner of the id. -/
def IdsOwned (w : World) : Prop := ∀ e ∈ w.udp.log, e.owner = some e.issuer

section
variable {w w' : World}

theorem udp_leased {a : Act} (h : w.udp.Leased) (hs : w.step a = some w') : w'.udp.Leased :=
  Lts.invariant (fun _ _ _ h hs => (h.step hs).1) h (udp_run (exec_single hs))

theorem udp_tells {a : Act} (h : w.udp.Leased) (hs : w.step a = some w') :
    SendsOpen w a ∧ Udp.LogsOwn w.udp w'.udp ∨
      ¬ SendsOpen w a ∧ ∃ e, w'.udp.log = w.udp.log ++ [e] ∧ e.owner ≠ some e.issuer := by
  cases hb : a.udpOp with
  | none =>
    rw [(step_frames hs).udp hb]
    exact Or.inl ⟨fun o ho => (by rw [hb] at ho; cases ho), Udp.LogsOwn.refl _⟩
  | some o =>
    cases a with
    | udp o' =>
      obtain ⟨ho, hl⟩ | ⟨ho, hl⟩ := (h.step (step_udp hs)).2
      · exact Or.inl ⟨fun p hp => by cases hp; exact ho, hl⟩
      · exact Or.inr ⟨fun hall => ho (hall o' rfl), hl⟩
    | _ => cases hb

end

/-- **Who owns an id**: in every run, with any kernel answers and recycled ids, every syscall that
carries an id was made by the socket that owned it at that moment if and only if nothing was sent
through a closed socket. -/
theorem ids_owned_iff (as : List Act) (w : World) (hr : World.runs as = some w) :
    IdsOwned w ↔ Along World.step SendsOpen {} as := by
  refine iff_along (I := fun w : World => w.udp.Leased) (fun _ _ _ h hs => udp_leased h hs)
    (fun s a s' h hs hg hq e he => ?_) (fun s a s' h hs hq => ?_) Udp.Leased.init
    (fun _ he => (by cases he)) hr
  · obtain ⟨-, l, hl, hown⟩ | ⟨hno, -⟩ := udp_tells h hs
    · rw [hl] at he
      obtain he | he := List.mem_append.mp he
      · exact hq e he
      · exact hown e he
    · exact absurd hg hno
  · obtain ⟨hg, l, hl, -⟩ | ⟨-, e, hl, hno⟩ := udp_tells h hs
    · exact ⟨fun e he => hq e (hl ▸ List.mem_append_left _ he), hg⟩
    · exact absurd (hq e (hl ▸ List.mem_append_right _ (List.mem_singleton_self e))) hno

/-- a socket is opened, used and closed twice, and the next one gets its id -/
def reopenedRun : List Act :=
  [.mkFn, .udp (.open_ 1234 0 ⟨5, 0, 0⟩), .udp (.sendtoString 0 "ff02::1" 9 [104, 105] 0),
   .udp (.close 0), .udp (.open_ 1235 0 ⟨5, 0, 0⟩), .udp (.close 0)]

instance (u : Udp) (o : UdpOp) : Decidable (u.SendsOpen o) :=
  inferInstanceAs (Decidable (∀ t ∈ o.sends, u.IsOpen t))

instance (w : World) (a : Act) : Decidable (SendsOpen w a) :=
  inferInstanceAs (Decidable (∀ o ∈ a.udpOp, w.udp.SendsOpen o))

theorem ids_owned_reopened : ∃ w, World.runs reopenedRun = some w ∧ IdsOwned w :=
  ⟨_, rfl, (ids_owned_iff reopenedRun _ rfl).mpr (by decide)⟩

/-- A stale handle sends through the socket that has got the id since. -/
theorem stale_sendto : ¬ ∀ (as : List Act) (w : World), World.runs as = some w → IdsOwned w := by
  intro h
  have hlast := h (reopenedRun ++ [.udp (.sendtoString 0 "ff02::1" 9 [104, 105] 0)]) _ rfl
    ⟨0, .sendto 5 [104, 105] 2 "ff02::1" 9, some 1⟩ (List.mem_of_getElem? (i := 6) rfl)
  cases hlast

end Storm
end Pharoah
