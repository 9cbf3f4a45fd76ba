import Pharoah.Lib.SelfRef
import Pharoah.Storm.SocketIds

/-!
# UDP sockets: registrations

* `Udp.receivers`    the sockets whose pointers the kernel has, by syscall 0x305;
* `Udp.Registered`   the kernel has the pointer of a socket exactly while its `self` is set, under its
                     id: an `open` that fails at any of its syscalls leaves no pointer behind;
* `udp_registered`   **it holds after every run**.
-/

namespace Pharoah
namespace Storm

open Lts

namespace Udp

/-- the socket whose pointer is registered for an id -/
def receivers (u : Udp) (id : Int32) : Option Nat := (u.socks id).bind KSocket.recv

theorem receivers_setSock (u : Udp) (id : Int32) (k : Option KSocket) :
    (u.setSock id k).receivers = Function.update u.receivers id (k.bind KSocket.recv) := by
  funext i
  show (Function.update u.socks id k i).bind KSocket.recv = _
  by_cases hi : i = id
  · subst hi
    rw [Function.update_self, Function.update_self]
  · rw [Function.update_of_ne hi, Function.update_of_ne hi]
    rfl

/-- what an `open` does to the registrations: nothing, unless all its syscalls succeed -/
theorem construct_receivers (u : Udp) (this : Nat) (port : UInt16) (r : Replies)
    (hr : r.create = -1 ∨ (u.socks r.create).isNone = true) :
    (u.construct this port r).1.receivers =
      if (u.construct this port r).2.2 = true then Function.update u.receivers r.create (some this)
      else u.receivers := by
  unfold construct
  split
  · rfl
  · next hc =>
    have hnone : u.receivers r.create = none := by
      obtain hr | hr := hr
      · exact absurd hr hc
      · unfold receivers
        rw [Option.isNone_iff_eq_none.mp hr]
        rfl
    have hsame : Function.update u.receivers r.create none = u.receivers :=
      (Function.update_eq_self_iff.mpr hnone.symm)
    have h1 : (u.setSock r.create (some { owner := this })).receivers = u.receivers :=
      (receivers_setSock ..).trans hsame
    have h2 : ∀ (v : Udp) (k : KSocket), v.receivers = u.receivers →
        (v.setSock r.create (some k)).receivers = Function.update u.receivers r.create k.recv := by
      intro v k hv
      rw [receivers_setSock, hv]
      rfl
    dsimp only
    split
    · exact h1
    · have h3 := (h2 ((u.setSock r.create (some { owner := this })).issue this (.bind r.create port))
        { owner := this, port := some port } h1).trans hsame
      split
      · exact h3
      · rw [if_pos rfl]
        exact h2 _ { owner := this, port := some port, recv := some this } h3

/-- a new socket is released at once, unless all its syscalls have succeeded -/
theorem live_open (u : Udp) (port : UInt16) (callback : Fn) (r : Replies) {t : Nat} :
    (u.open_ port callback r).Live t ↔
      u.Live t ∨ t = u.objs.length ∧ (u.construct u.objs.length port r).2.2 = true := by
  cases hok : (u.construct u.objs.length port r).2.2 with
  | true =>
    have he : (u.open_ port callback r).handles = u.objs.length :: u.handles := by
      show (if (u.construct u.objs.length port r).2.2 = true then _ else _) = _
      rw [if_pos hok]
    have hkept : (u.open_ port callback r).Live t ↔ u.Live t ∨ t = u.objs.length := by
      unfold Live
      rw [he]
      exact kept_push_handle
    rw [hkept, and_iff_left rfl]
  | false =>
    have he : (u.open_ port callback r).handles = u.handles := by
      show (if (u.construct u.objs.length port r).2.2 = true then _ else _) = _
      rw [if_neg (by rw [hok]; exact Bool.false_ne_true)]
    have hkept : (u.open_ port callback r).Live t ↔ u.Live t := by
      unfold Live
      rw [he]
      apply kept_push
      exact hok
    rw [hkept]
    exact ⟨Or.inl, fun h => h.elim id fun h => by cases h.2⟩

/-- The kernel has the pointer of a socket exactly while its `self` is set. -/
structure Registered (u : Udp) : Prop where
  backed : Backed u.receivers u.claim
  held : Held u.receivers u.claim

section
variable {u u' : Udp}

theorem Registered.init : Registered {} := ⟨Backed.empty, fun _ _ h => (by cases h)⟩

theorem Registered.of_same (h : Registered u) (ho : u'.objs = u.objs) (hs : u'.socks = u.socks) :
    Registered u' := by
  obtain ⟨hb, hh⟩ := h
  unfold Backed receivers claim at hb
  unfold Held receivers claim at hh
  constructor
  · unfold Backed receivers claim
    rw [ho, hs]
    exact hb
  · unfold Held receivers claim
    rw [ho, hs]
    exact hh

theorem Registered.open_ (h : Registered u) {r : Replies}
    (hr : r.create = -1 ∨ (u.socks r.create).isNone = true) (port : UInt16) (callback : Fn) :
    Registered (u.open_ port callback r) := by
  have hrecv : (u.open_ port callback r).receivers = _ :=
    construct_receivers u u.objs.length port r hr
  have hid : (u.construct u.objs.length port r).2.1 = r.create := (construct_owner ..).1
  cases hok : (u.construct u.objs.length port r).2.2 with
  | false =>
    have hclaim : (u.open_ port callback r).claim = u.claim := claims_push_off hok
    rw [if_neg (by rw [hok]; exact Bool.false_ne_true)] at hrecv
    exact ⟨by rw [hclaim, hrecv]; exact h.backed, by rw [hclaim, hrecv]; exact h.held⟩
  | true =>
    have hclaim : (u.open_ port callback r).claim =
        Function.update u.claim u.objs.length (some r.create) := by
      rw [← hid]
      exact claims_push hok
    rw [if_pos hok] at hrecv
    have hfree : u.receivers r.create = none := by
      unfold receivers
      obtain hc | hc := hr
      · -- a constructor whose first syscall is refused has failed
        unfold construct at hok
        rw [if_pos hc] at hok
        cases hok
      · rw [Option.isNone_iff_eq_none.mp hc]
        rfl
    constructor
    · rw [hclaim, hrecv]
      exact h.backed.grant claims_new
    · rw [hclaim, hrecv]
      exact h.held.grant hfree

theorem Registered.close (h : Registered u) (t : Nat) : Registered (u.close t) := by
  cases hS : u.objs[t]? with
  | none =>
    rw [close_none hS]
    exact h
  | some S =>
    rw [close_eq hS]
    split
    · next hself =>
      have hclaim : u.claim t = some S.id := claim_eq.mpr ⟨S, hS, hself, rfl⟩
      have hrecv : (((u.issue t (.close S.id)).setSock S.id none).resetSelf t).receivers =
          Function.update u.receivers S.id none := receivers_setSock (u.issue t (.close S.id)) S.id none
      have hc : (((u.issue t (.close S.id)).setSock S.id none).resetSelf t).claim =
          Function.update u.claim t none := claims_reset (fun _ => rfl) t
      constructor
      · rw [hrecv, hc]
        exact h.backed.revoke hclaim
      · rw [hrecv, hc]
        exact h.held.revoke hclaim
    · exact h

/-- **One call** keeps it. -/
theorem Registered.step (h : Registered u) {o : UdpOp} (hs : u.step o = some u') : Registered u' := by
  cases step_cases hs with
  | open_ port callback r hr => exact h.open_ hr port callback
  | close t ht => exact h.close t
  | sendto t addr port payload length reply ht =>
    obtain ⟨ho, -, hk⟩ := sendto_objs u t addr port payload length reply
    exact h.of_same ho hk
  | sendtoString t addr port payload reply ht =>
    obtain ⟨ho, -, hk⟩ := sendto_objs u t addr port payload payload.length reply
    exact h.of_same ho hk
  | copy t ht => exact h.of_same rfl rfl
  | drop t ht => exact h.of_same rfl rfl

/-- a packet is delivered to a socket that has not been released, for its callback -/
theorem Registered.receiver (h : Registered u) {id : Int32} {t : Nat} {f : Fn}
    (hr : u.receiver id = some (t, f)) : u.Live t ∧ (u.objs[t]?).map UDPSocket.callback = some f := by
  obtain ⟨v, hv, hmap⟩ := Option.bind_eq_some_iff.mp hr
  obtain ⟨S, hS, he⟩ := Option.map_eq_some_iff.mp hmap
  cases he
  obtain ⟨T, hT, hself, -⟩ := claim_eq.mp (h.backed t id hv)
  exact ⟨Or.inr ⟨T, hT, hself⟩, by rw [hS]; rfl⟩

end
end Udp

section
variable {w w' : World}

theorem registered_run {as : List Act} (h : w.udp.Registered)
    (hr : Lts.exec World.step w as = some w') : w'.udp.Registered :=
  Lts.invariant (fun _ _ _ h hs => h.step hs) h (udp_run hr)

theorem registered_step {a : Act} (h : w.udp.Registered) (hs : w.step a = some w') :
    w'.udp.Registered := registered_run h (exec_single hs)

theorem udp_registered {as : List Act} (hr : World.runs as = some w) : w.udp.Registered :=
  registered_run Udp.Registered.init hr

end
end Storm
end Pharoah
