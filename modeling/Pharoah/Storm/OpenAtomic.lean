import Pharoah.Storm.SocketLife

/-!
# Opening a socket: all or nothing

The constructor makes three syscalls, and gives up at the first that fails without undoing those before.

* `Udp.returned`   the pointer that `open` returns;
* `Udp.Opened`     it is a socket that is created, bound and registered, with `self` set;
* `Udp.Undone`     it is null, and the call has left nothing behind;
* `bound`          the port that an id is bound to in the kernel.

`open_atomic_iff`: **an `open` is one or the other if and only if neither the second nor the third
syscall fails after the first has succeeded**.
-/

namespace Pharoah
namespace Storm

namespace Udp

/-- the pointer that `UDPSocket::open` returns, `none` for null -/
def returned (u : Udp) (port : UInt16) (r : Replies) : Option Nat :=
  if (u.construct u.objs.length port r).2.2 then some u.objs.length else none

/-- the port that an id is bound to -/
def bound (u : Udp) (id : Int32) : Option UInt16 := (u.socks id).bind KSocket.port

/-- `open` has returned `t`, which user code has a handle of: its id is allocated and bound to `port`,
its pointer is registered for packets, and its `self` is set. -/
structure Opened (u' : Udp) (port : UInt16) (t : Nat) : Prop where
  handle : t ∈ u'.handles
  self : u'.IsOpen t
  kernel : ∀ S, u'.objs[t]? = some S →
    u'.socks S.id = some { owner := t, port := some port, recv := some t }

/-- The ids, the ports and the handles are what they were, and neither a socket nor the pointer of one
is left that was not there. -/
structure Undone (u u' : Udp) : Prop where
  ids : ∀ id, (u'.socks id).isSome = (u.socks id).isSome
  ports : ∀ id, u'.bound id = u.bound id
  handles : u'.handles = u.handles
  released : ∀ t, u'.Live t → u.Live t
  pointers : ∀ id t, u'.receivers id = some t → u.receivers id = some t

/-- All or nothing. -/
def Atomic (u : Udp) (port : UInt16) (callback : Fn) (r : Replies) : Prop :=
  (∃ t, u.returned port r = some t ∧ Opened (u.open_ port callback r) port t) ∨
    u.returned port r = none ∧ Undone u (u.open_ port callback r)

section
variable (u : Udp) (port : UInt16) (callback : Fn) (r : Replies)

/-- what the constructor leaves in the kernel, by the syscall that fails -/
theorem construct_socks (this : Nat) :
    (r.create = -1 → (u.construct this port r).2.2 = false ∧ (u.construct this port r).1.socks = u.socks) ∧
    (r.create ≠ -1 → (r.bind = -1 ∨ r.recv = -1) → (u.construct this port r).2.2 = false ∧
      ((u.construct this port r).1.socks r.create).isSome = true) ∧
    (r.create ≠ -1 → r.bind ≠ -1 → r.recv ≠ -1 → (u.construct this port r).2 = (r.create, true) ∧
      (u.construct this port r).1.socks r.create =
        some { owner := this, port := some port, recv := some this }) := by
  refine ⟨fun hc => ?_, fun hc hf => ?_, fun hc hb hv => ?_⟩
  · unfold construct
    rw [if_pos hc]
    exact ⟨rfl, rfl⟩
  · unfold construct
    rw [if_neg hc]
    by_cases hb : r.bind = -1
    · simp [hb, setSock, issue]
    · have hv : r.recv = -1 := hf.resolve_left hb
      simp [hb, hv, setSock, issue]
  · unfold construct
    rw [if_neg hc]
    simp [hb, hv, setSock, issue]

variable {u port callback r}

/-- an `open` that fails at its first syscall has done nothing -/
theorem undone_of_refused (hc : r.create = -1) :
    u.returned port r = none ∧ Undone u (u.open_ port callback r) := by
  obtain ⟨hok, hsocks⟩ := (construct_socks u port r u.objs.length).1 hc
  have hs : (u.open_ port callback r).socks = u.socks := hsocks
  refine ⟨?_, fun id => by rw [hs], fun id => ?_, ?_, fun t ht => ?_, fun id t ht => ?_⟩
  · unfold returned
    rw [hok]
    rfl
  · unfold bound
    rw [hs]
  · show (if (u.construct u.objs.length port r).2.2 = true then _ else _) = _
    rw [hok]
    rfl
  · obtain ht | ⟨-, hno⟩ := (live_open u port callback r).mp ht
    · exact ht
    · rw [hok] at hno
      cases hno
  · unfold receivers at ht ⊢
    rwa [hs] at ht

/-- one whose syscalls all succeed has opened a socket -/
theorem opened_of_accepted (hc : r.create ≠ -1) (hb : r.bind ≠ -1) (hv : r.recv ≠ -1) :
    u.returned port r = some u.objs.length ∧ Opened (u.open_ port callback r) port u.objs.length := by
  obtain ⟨hpair, hsock⟩ := (construct_socks u port r u.objs.length).2.2 hc hb hv
  have hok : (u.construct u.objs.length port r).2.2 = true := by rw [hpair]
  have hid : (u.construct u.objs.length port r).2.1 = r.create := by rw [hpair]
  have hget : (u.open_ port callback r).objs[u.objs.length]? =
      some ⟨(u.construct u.objs.length port r).2.1, (u.construct u.objs.length port r).2.2, callback,
        (u.construct u.objs.length port r).2.2⟩ := List.getElem?_concat_length
  refine ⟨?_, ?_, ?_, fun S hS => ?_⟩
  · unfold returned
    rw [hok]
    rfl
  · show u.objs.length ∈ (if (u.construct u.objs.length port r).2.2 = true then _ else _)
    rw [hok]
    exact List.mem_cons_self ..
  · unfold IsOpen
    rw [hget, hok]
    rfl
  · rw [hget] at hS
    cases hS
    rw [hid]
    exact hsock

end
end Udp

/-- **Opening a socket is atomic** exactly if it fails at its first syscall or not at all: for every
state of the library and the kernel, in which the id that the kernel hands out is not allocated. -/
theorem open_atomic_iff (u : Udp) (port : UInt16) (callback : Fn) (r : Replies)
    (hr : r.create = -1 ∨ (u.socks r.create).isNone = true) :
    u.Atomic port callback r ↔ r.create = -1 ∨ r.bind ≠ -1 ∧ r.recv ≠ -1 := by
  by_cases hc : r.create = -1
  · exact iff_of_true (Or.inr (Udp.undone_of_refused hc)) (Or.inl hc)
  · by_cases hf : r.bind = -1 ∨ r.recv = -1
    · refine iff_of_false (fun h => ?_) (fun h => ?_)
      · obtain ⟨hok, hsome⟩ := (Udp.construct_socks u port r u.objs.length).2.1 hc hf
        obtain ⟨t, ht, -⟩ | ⟨-, hu⟩ := h
        · unfold Udp.returned at ht
          rw [hok] at ht
          cases ht
        · -- the id is still allocated
          have hids : ((u.open_ port callback r).socks r.create).isSome = (u.socks r.create).isSome :=
            hu.ids r.create
          have hnone : u.socks r.create = none := Option.isNone_iff_eq_none.mp (hr.resolve_left hc)
          have hsome' : ((u.open_ port callback r).socks r.create).isSome = true := hsome
          rw [hsome', hnone] at hids
          cases hids
      · obtain h | ⟨hb, hv⟩ := h
        · exact hc h
        · exact hf.elim hb hv
    · have hb : r.bind ≠ -1 := fun h => hf (Or.inl h)
      have hv : r.recv ≠ -1 := fun h => hf (Or.inr h)
      exact iff_of_true (Or.inl ⟨_, Udp.opened_of_accepted hc hb hv⟩) (Or.inr ⟨hb, hv⟩)

theorem open_atomic_first : Udp.Atomic {} 1234 0 ⟨5, 0, 0⟩ :=
  (open_atomic_iff {} 1234 0 ⟨5, 0, 0⟩ (by decide)).mpr (by decide)

/-- A socket whose port cannot be bound is given up with its id still allocated. -/
theorem open_keeps_id : ¬ ∀ (u : Udp) (port : UInt16) (callback : Fn) (r : Replies),
    (r.create = -1 ∨ (u.socks r.create).isNone = true) → u.Atomic port callback r := by
  intro h
  obtain ⟨t, ht, -⟩ | ⟨-, hu⟩ := h {} 1234 0 ⟨5, -1, 0⟩ (by decide)
  · cases ht
  · have hids := hu.ids 5
    cases hids

end Storm
end Pharoah
