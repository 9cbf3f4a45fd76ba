import Pharoah.Storm.Queue

/-!
# UDP sockets

`storm::UDPSocket` in `test/libstorm.h` and `test/libstorm.cc`, with the kernel's table of sockets.
A `UDPSocket` is its number; its memory is released once no user handle and no `self` is left.

* `Udp`      the objects, the handles user code has, and the sockets of the kernel;
* `open_`, `close`, `sendto`, `packet`   the code;
* `Udp.step`  one call by user code; `step_cases` what it can do, case by case.

The kernel is not part of the code.  It is taken to answer syscall 0x301 with an id that is not
allocated, or with -1; an id stays allocated until syscall 0x303.  Syscall 0x302 binds a port and
0x305 registers a pointer, unless they answer -1.
-/

namespace Pharoah
namespace Storm

/-- a socket of the kernel: the object whose syscall 0x301 got its id, the port that it is bound to
and the raw pointer registered for its packets -/
structure KSocket where
  owner : Nat
  port : Option UInt16 := none
  recv : Option Nat := none

/-- the syscalls that carry an id: 0x302, 0x303, 0x304 and 0x305 -/
inductive Syscall where
  | bind (id : Int32) (port : UInt16)
  | close (id : Int32)
  | sendto (id : Int32) (payload : List UInt8) (length : Nat) (addr : String) (port : UInt16)
  | set_recvfrom (id : Int32) (r : Nat)
deriving DecidableEq

def Syscall.number : Syscall → Nat
  | .bind .. => 0x302
  | .close .. => 0x303
  | .sendto .. => 0x304
  | .set_recvfrom .. => 0x305

def Syscall.id : Syscall → Int32
  | .bind id _ => id
  | .close id => id
  | .sendto id _ _ _ _ => id
  | .set_recvfrom id _ => id

/-- a syscall that was made: the object that made it, and the one that owned the id then -/
structure Issued where
  issuer : Nat
  call : Syscall
  owner : Option Nat
deriving DecidableEq

/-- one `UDPSocket`; `self` says whether its circular reference is set -/
structure UDPSocket where
  id : Int32
  okay : Bool
  callback : Fn
  self : Bool := false
deriving DecidableEq

/-- `handles` has a socket once for each `shared_ptr` that user code holds. -/
structure Udp where
  objs : List UDPSocket := []
  handles : List Nat := []
  socks : Int32 → Option KSocket := fun _ => none
  log : List Issued := []

/-- the kernel's answers to the syscalls of an `open` -/
structure Replies where
  create : Int32
  bind : Int32
  recv : Int32
deriving DecidableEq

/-! ## packets -/

structure udp_recv_params_t where
  buffer : List UInt8
  src_address : Vector UInt8 16
  port : UInt32
  lqi : UInt8
  rssi : UInt8
deriving DecidableEq

structure Packet where
  payload : List UInt8
  strsrc : String
  src : Vector UInt8 16
  port : UInt16
  lqi : UInt8
  rssi : UInt8
deriving DecidableEq

/-- the packet that `_handle` makes for the callback -/
def packet (recv : udp_recv_params_t) (addrstr : String) : Packet where
  payload := recv.buffer
  strsrc := addrstr
  src := recv.src_address
  port := recv.port.toUInt16
  lqi := recv.lqi
  rssi := recv.rssi

/-! ## calls -/

/-- A call on a socket; `replies` and `reply` are answers of the kernel. -/
inductive UdpOp where
  | open_ (port : UInt16) (callback : Fn) (replies : Replies)
  | close (t : Nat)
  | sendto (t : Nat) (addr : String) (port : UInt16) (payload : List UInt8) (length : Nat)
      (reply : Int32)
  | sendtoString (t : Nat) (addr : String) (port : UInt16) (payload : List UInt8) (reply : Int32)
  | copy (t : Nat)
  | drop (t : Nat)
deriving DecidableEq

namespace Udp

/-- who owns an id -/
def owner (u : Udp) (id : Int32) : Option Nat := (u.socks id).map KSocket.owner

/-- the object `this` makes a syscall that carries an id -/
def issue (u : Udp) (this : Nat) (c : Syscall) : Udp :=
  { u with log := u.log ++ [⟨this, c, u.owner c.id⟩] }

/-- what the kernel does to the socket `id` -/
def setSock (u : Udp) (id : Int32) (k : Option KSocket) : Udp :=
  { u with socks := Function.update u.socks id k }

/-- the syscalls of the constructor of `this`, up to the first that fails, with the members `id` and
`okay` that they leave -/
def construct (u : Udp) (this : Nat) (port : UInt16) (r : Replies) : Udp × Int32 × Bool :=
  if r.create = -1 then (u, r.create, false)
  else
    let u := u.setSock r.create (some { owner := this })
    let u := u.issue this (.bind r.create port)
    if r.bind = -1 then (u, r.create, false)
    else
      let u := u.setSock r.create (some { owner := this, port := some port })
      let u := u.issue this (.set_recvfrom r.create this)
      if r.recv = -1 then (u, r.create, false)
      else
        (u.setSock r.create (some { owner := this, port := some port, recv := some this }),
          r.create, true)

/-- `UDPSocket::open(port, callback)`: when the constructor has failed the object is released and
null is returned, otherwise the circular reference is set up and the pointer returned -/
def open_ (u : Udp) (port : UInt16) (callback : Fn) (r : Replies) : Udp :=
  let this := u.objs.length
  let c := u.construct this port r
  { c.1 with
    objs := u.objs ++ [{ id := c.2.1, okay := c.2.2, callback, self := c.2.2 }]
    handles := if c.2.2 then this :: u.handles else u.handles }

/-- `self.reset()` -/
def resetSelf (u : Udp) (t : Nat) : Udp :=
  { u with objs := u.objs.modify t fun S => { S with self := false } }

/-- `t->close()` -/
def close (u : Udp) (t : Nat) : Udp :=
  match u.objs[t]? with
  | some S => if S.self then ((u.issue t (.close S.id)).setSock S.id none).resetSelf t else u
  | none => u

/-- `t->sendto(addr, port, payload, length)` -/
def sendto (u : Udp) (t : Nat) (addr : String) (port : UInt16) (payload : List UInt8) (length : Nat)
    (reply : Int32) : Udp × Bool :=
  match u.objs[t]? with
  | some S => (u.issue t (.sendto S.id payload length addr port), reply == 0)
  | none => (u, false)

/-- `t->sendto(addr, port, payload)`: the whole string -/
def sendtoString (u : Udp) (t : Nat) (addr : String) (port : UInt16) (payload : List UInt8)
    (reply : Int32) : Udp × Bool := u.sendto t addr port payload payload.length reply

/-- the socket that the kernel delivers a packet for `id` to, and its callback -/
def receiver (u : Udp) (id : Int32) : Option (Nat × Fn) :=
  ((u.socks id).bind KSocket.recv).bind fun t => (u.objs[t]?).map fun S => (t, S.callback)

/-- Its memory has not been released. -/
def Live (u : Udp) (t : Nat) : Prop := t ∈ u.handles ∨ ∃ S, u.objs[t]? = some S ∧ S.self = true

/-- one call -/
def step (u : Udp) : UdpOp → Option Udp
  | .open_ port callback r =>
    if r.create = -1 ∨ (u.socks r.create).isNone then some (u.open_ port callback r) else none
  | .close t => if t ∈ u.handles then some (u.close t) else none
  | .sendto t addr port payload length reply =>
    if t ∈ u.handles then some (u.sendto t addr port payload length reply).1 else none
  | .sendtoString t addr port payload reply =>
    if t ∈ u.handles then some (u.sendtoString t addr port payload reply).1 else none
  | .copy t => if t ∈ u.handles then some { u with handles := t :: u.handles } else none
  | .drop t => if t ∈ u.handles then some { u with handles := u.handles.erase t } else none

/-- What a call can do, and when it is possible. -/
inductive Steps (u : Udp) : UdpOp → Udp → Prop where
  | open_ (port : UInt16) (callback : Fn) (r : Replies)
      (hr : r.create = -1 ∨ (u.socks r.create).isNone = true) :
      Steps u (.open_ port callback r) (u.open_ port callback r)
  | close (t : Nat) (ht : t ∈ u.handles) : Steps u (.close t) (u.close t)
  | sendto (t : Nat) (addr : String) (port : UInt16) (payload : List UInt8) (length : Nat)
      (reply : Int32) (ht : t ∈ u.handles) :
      Steps u (.sendto t addr port payload length reply) (u.sendto t addr port payload length reply).1
  | sendtoString (t : Nat) (addr : String) (port : UInt16) (payload : List UInt8) (reply : Int32)
      (ht : t ∈ u.handles) :
      Steps u (.sendtoString t addr port payload reply) (u.sendtoString t addr port payload reply).1
  | copy (t : Nat) (ht : t ∈ u.handles) : Steps u (.copy t) { u with handles := t :: u.handles }
  | drop (t : Nat) (ht : t ∈ u.handles) : Steps u (.drop t) { u with handles := u.handles.erase t }

theorem step_cases {u u' : Udp} {o : UdpOp} (hs : u.step o = some u') : Steps u o u' := by
  cases o with
  | open_ port callback r =>
    obtain ⟨hr, he⟩ := Option.ite_none_right_eq_some.mp hs
    cases he
    exact .open_ port callback r hr
  | close t =>
    obtain ⟨ht, he⟩ := Option.ite_none_right_eq_some.mp hs
    cases he
    exact .close t ht
  | sendto t addr port payload length reply =>
    obtain ⟨ht, he⟩ := Option.ite_none_right_eq_some.mp hs
    cases he
    exact .sendto t addr port payload length reply ht
  | sendtoString t addr port payload reply =>
    obtain ⟨ht, he⟩ := Option.ite_none_right_eq_some.mp hs
    cases he
    exact .sendtoString t addr port payload reply ht
  | copy t =>
    obtain ⟨ht, he⟩ := Option.ite_none_right_eq_some.mp hs
    cases he
    exact .copy t ht
  | drop t =>
    obtain ⟨ht, he⟩ := Option.ite_none_right_eq_some.mp hs
    cases he
    exact .drop t ht

end Udp
end Storm
end Pharoah
