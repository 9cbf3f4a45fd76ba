import Pharoah.Lib.Lts
import Pharoah.Lib.Prog
import Pharoah.Rtt.Write
import Mathlib.Logic.Function.Basic

/-!
# The control block

The calls of `rtt/SEGGER_RTT.c` on the control block, with the constants of `rtt/SEGGER_RTT_Conf.h`.
`SEGGER_RTT_IN_RAM` is 0, so `_Init` does nothing, and the lock macros are empty.

* `SEGGER_RTT_CB`, `Target`   the control block, and the target with the moves of the host to come;
* `SEGGER_RTT_Write`, ...     the code, as programs over a `Target`;
* `Flow r sent got`           between calls: the buffer holds what was sent and is not got, or it has
                              never been set up;
* `Target.Ok`                 every buffer of either direction is so;
* `Target.Sends s i bs s'`    from `s` to `s'` the target sends `bs` over up-buffer `i`, and nothing else;
* `write_sends`               what a call of `SEGGER_RTT_Write` sends; `write_whole` if there is room;
* `write_sends_returns`       it returns, if it must not block.
-/

namespace Pharoah
namespace Rtt

open Cells Lts Prog

def BUFFER_SIZE_UP : Nat := 1024
def BUFFER_SIZE_DOWN : Nat := 16
def SEGGER_RTT_MAX_NUM_UP_BUFFERS : Nat := 2
def SEGGER_RTT_MAX_NUM_DOWN_BUFFERS : Nat := 1

structure SEGGER_RTT_CB where
  acID : String
  MaxNumUpBuffers : Nat
  MaxNumDownBuffers : Nat
  aUp : List RING_BUFFER
  aDown : List RING_BUFFER
deriving DecidableEq, Repr

/-- a descriptor that the initialiser leaves out -/
def RING_BUFFER.zeroed : RING_BUFFER := ⟨"", [], 0, 0, 0, 0⟩

/-- channel 0, as the initialiser sets it up -/
def RING_BUFFER.terminal (size : Nat) : RING_BUFFER :=
  ⟨"Terminal", List.replicate size 0, size, 0, 0, SEGGER_RTT_MODE_NO_BLOCK_SKIP⟩

/-- `_SEGGER_RTT` before the first call -/
def SEGGER_RTT_CB.init : SEGGER_RTT_CB where
  acID := "SEGGER RTT"
  MaxNumUpBuffers := SEGGER_RTT_MAX_NUM_UP_BUFFERS
  MaxNumDownBuffers := SEGGER_RTT_MAX_NUM_DOWN_BUFFERS
  aUp := [.terminal BUFFER_SIZE_UP, .zeroed]
  aDown := [.terminal BUFFER_SIZE_DOWN]

/-- The target: the statics of the code, and the moves that the host will make at the next loads of an
`RdOff`.  Not in the code: for each up-buffer the bytes `sent` and those the host `got`, for each
down-buffer the bytes the host has `typed` and those that reads returned, the `keys`. -/
structure Target where
  cb : SEGGER_RTT_CB
  _ActiveTerminal : Byte
  host : List Nat
  sent : Nat → List Byte
  got : Nat → List Byte
  typed : Nat → List Byte
  keys : Nat → List Byte

def Target.init (host : List Nat) : Target :=
  ⟨.init, 0, host, fun _ => [], fun _ => [], fun _ => [], fun _ => []⟩

/-- programs of the target -/
abbrev Code := EStateM Stop Target

/-- more of the stream `i` -/
def extend (f : Nat → List Byte) (i : Nat) (bs : List Byte) : Nat → List Byte :=
  Function.update f i (f i ++ bs)

/-! ## the code -/

/-- `SEGGER_RTT_Read`: the bytes that are copied to the caller -/
def SEGGER_RTT_Read (BufferIndex BufferSize : Nat) : Code (List Byte) := fun s =>
  match s.cb.aDown[BufferIndex]? with
  | none => .error .fault s
  | some r =>
    match r.read BufferSize with
    | .error e => .error e s
    | .ok (r', bs) => .ok bs { s with
        cb := { s.cb with aDown := s.cb.aDown.set BufferIndex r' }
        keys := extend s.keys BufferIndex bs }

/-- `SEGGER_RTT_Write` with `NumBytes` the length of `pBuffer` -/
def SEGGER_RTT_Write (BufferIndex : Nat) (pBuffer : List Byte) : Code Nat := fun s =>
  match s.cb.aUp[BufferIndex]? with
  | none => .error .fault s
  | some r =>
    match r.write pBuffer s.host with
    | .error e => .error e s
    | .ok w => .ok w.NumBytesWritten { s with
        cb := { s.cb with aUp := s.cb.aUp.set BufferIndex w.ring }
        host := w.host
        sent := extend s.sent BufferIndex (pBuffer.take w.NumBytesWritten)
        got := extend s.got BufferIndex w.taken }

/-- `_strlen` of the memory from `s` on -/
def _strlen : List Byte → Option Nat
  | [] => none
  | b :: s => if b = 0 then some 0 else (_strlen s).map (· + 1)

/-- `SEGGER_RTT_WriteString`, of a null pointer or the memory at `s` -/
def SEGGER_RTT_WriteString (BufferIndex : Nat) : Option (List Byte) → Code Nat
  | none => SEGGER_RTT_Write BufferIndex []
  | some s =>
    match _strlen s with
    | none => throw .fault
    | some Len => SEGGER_RTT_Write BufferIndex (s.take Len)

def SEGGER_RTT_GetKey : Code Int := do
  let out ← SEGGER_RTT_Read 0 1
  match out with
  | [c] => return c.toNat
  | _ => return -1

def SEGGER_RTT_HasKey : Code Nat := fun s =>
  match s.cb.aDown[0]? with
  | none => .error .fault s
  | some r => .ok (if r.RdOff ≠ r.WrOff then 1 else 0) s

/-- the descriptor after a configuration; only that of a buffer other than 0 is set up anew -/
def RING_BUFFER.config (r : RING_BUFFER) (BufferIndex : Nat) (sName : String) (pBuffer : List Byte)
    (BufferSize Flags : Nat) : RING_BUFFER :=
  if BufferIndex > 0 then ⟨sName, pBuffer, BufferSize, 0, 0, Flags⟩ else { r with Flags := Flags }

/-- `SEGGER_RTT_ConfigUpBuffer`; setting a buffer up anew begins a new stream -/
def SEGGER_RTT_ConfigUpBuffer (BufferIndex : Nat) (sName : String) (pBuffer : List Byte)
    (BufferSize Flags : Nat) : Code Int := fun s =>
  if BufferIndex < s.cb.MaxNumUpBuffers then
    .ok 0 { s with
      cb := { s.cb with aUp := s.cb.aUp.modify BufferIndex (·.config BufferIndex sName pBuffer BufferSize Flags) }
      sent := if BufferIndex > 0 then Function.update s.sent BufferIndex [] else s.sent
      got := if BufferIndex > 0 then Function.update s.got BufferIndex [] else s.got }
  else
    .ok (-1) s

/-- `SEGGER_RTT_ConfigDownBuffer` -/
def SEGGER_RTT_ConfigDownBuffer (BufferIndex : Nat) (sName : String) (pBuffer : List Byte)
    (BufferSize Flags : Nat) : Code Int := fun s =>
  if BufferIndex < s.cb.MaxNumDownBuffers then
    .ok 0 { s with
      cb := { s.cb with
        aDown := s.cb.aDown.modify BufferIndex (·.config BufferIndex sName pBuffer BufferSize Flags) }
      typed := if BufferIndex > 0 then Function.update s.typed BufferIndex [] else s.typed
      keys := if BufferIndex > 0 then Function.update s.keys BufferIndex [] else s.keys }
  else
    .ok (-1) s

/-- The second byte of the escape sequence for a terminal; a `char` is unsigned here, and there are 16. -/
def terminalChar (TerminalId : Byte) : Option Byte :=
  if TerminalId < 10 then some (0x30 + TerminalId)
  else if TerminalId < 16 then some (0x41 + (TerminalId - 0x0A))
  else none

theorem terminalChar_none {id : Byte} : terminalChar id = none ↔ ¬ id < 16 := by
  unfold terminalChar
  split
  · next h => exact ⟨fun h' => (by cases h'), fun h' => absurd (UInt8.lt_trans h (by decide)) h'⟩
  · split
    · next h => exact ⟨fun h' => (by cases h'), fun h' => absurd h h'⟩
    · next h => exact ⟨fun _ => h, fun _ => rfl⟩

def SEGGER_RTT_SetTerminal (TerminalId : Byte) : Code Unit :=
  match terminalChar TerminalId with
  | none => return ()
  | some c => do
    modify fun s => { s with _ActiveTerminal := TerminalId }
    let _ ← SEGGER_RTT_Write 0 [0xFF, c]

/-- The byte that switches back: which of the two ranges it is taken from depends on `TerminalId`. -/
def returnChar (TerminalId _ActiveTerminal : Byte) : Byte :=
  if TerminalId < 10 then 0x30 + _ActiveTerminal else 0x41 + (_ActiveTerminal - 0x0A)

def SEGGER_RTT_TerminalOut (TerminalId : Byte) (s : Option (List Byte)) : Code Int :=
  match terminalChar TerminalId with
  | none => return -1
  | some c => do
    let _ ← SEGGER_RTT_Write 0 [0xFF, c]
    let r ← SEGGER_RTT_WriteString 0 s
    let t ← get
    let _ ← SEGGER_RTT_Write 0 [0xFF, returnChar TerminalId t._ActiveTerminal]
    return r

/-! ## the host -/

/-- the host reads an up-buffer -/
def hostReads (i ask : Nat) : Code Unit := fun s =>
  match s.cb.aUp[i]? with
  | none => .error .fault s
  | some r =>
    match r.read ask with
    | .error e => .error e s
    | .ok (r', bs) => .ok () { s with
        cb := { s.cb with aUp := s.cb.aUp.set i r' }
        got := extend s.got i bs }

/-- the host writes a down-buffer, while the target stands still -/
def hostWrites (i : Nat) (bs : List Byte) : Code Unit := fun s =>
  match s.cb.aDown[i]? with
  | none => .error .fault s
  | some r =>
    match r.write bs [0, 0, 0] with
    | .error e => .error e s
    | .ok w => .ok () { s with
        cb := { s.cb with aDown := s.cb.aDown.set i w.ring }
        typed := extend s.typed i (bs.take w.NumBytesWritten) }

/-- `SEGGER_RTT_WaitKey`; before each turn of its loop the host writes the next bytes -/
def SEGGER_RTT_WaitKey : List (List Byte) → Code Int
  | [] => throw .waiting
  | bs :: more => do
    hostWrites 0 bs
    let r ← SEGGER_RTT_GetKey
    if r < 0 then SEGGER_RTT_WaitKey more else return r

/-! ## between calls -/

/-- The buffer has never been set up, or it holds what was sent and is not got, with both offsets inside. -/
inductive Flow (r : RING_BUFFER) : List Byte → List Byte → Prop
  | zeroed (h : r = .zeroed) : Flow r [] []
  | up {sent got : List Byte} (inv : r.Inv sent got.length) (got_eq : got = sent.take got.length)
      (wr : r.WrOff < r.SizeOfBuffer) (rd : r.RdOff < r.SizeOfBuffer) : Flow r sent got

/-- the read bytes, and the next of the stream -/
theorem got_next {sent got bs : List Byte} (hgot : got = sent.take got.length)
    (hbs : bs = (sent.drop got.length).take bs.length) :
    got ++ bs = sent.take (got ++ bs).length := by
  rw [List.length_append, List.take_add, ← hgot, ← hbs]

/-! a buffer that has not been set up -/

theorem zeroed_read {ask : Nat} (hask : ask < 2 ^ 31) : RING_BUFFER.zeroed.read ask = .ok (.zeroed, []) := by
  have hmin : ¬ (min ((0 : Nat) - (0 : Nat) : Int) (int ask) > 0) := by
    rw [int_eq hask]
    omega
  unfold RING_BUFFER.read Reading.first Reading.rest
  simp only [Reading.start, RING_BUFFER.zeroed, bind, Except.bind, pure, Except.pure, gt_iff_lt,
    Nat.lt_irrefl, if_false]
  rw [if_neg hmin]
  rfl

theorem zeroed_write {ask : Nat} {host : List Nat} {data : List Byte} (hask : ask < 2 ^ 31)
    (hlen : data.length < 2 ^ 31) :
    RING_BUFFER.zeroed.write data (ask :: host) = .ok ⟨.zeroed, host, [], 0⟩ := by
  have hmode : RING_BUFFER.zeroed.mode = SEGGER_RTT_MODE_NO_BLOCK_SKIP := rfl
  have hfit : RING_BUFFER.zeroed.fitting RING_BUFFER.zeroed.RdOff data.length = 0 := by
    have hroom : RING_BUFFER.zeroed.room RING_BUFFER.zeroed.RdOff = -1 := rfl
    unfold RING_BUFFER.fitting
    dsimp only
    rw [hroom, hmode, int_eq hlen, if_pos (by omega), if_pos rfl]
  unfold RING_BUFFER.write
  rw [hmode, if_pos (by decide)]
  simp only [zeroed_read hask, bind, Except.bind, hfit, if_pos]
  rfl

namespace Flow

variable {r : RING_BUFFER} {sent got : List Byte}

theorem prefix_sent (h : Flow r sent got) : got <+: sent := by
  cases h with
  | zeroed => exact List.prefix_refl _
  | up _ hgot =>
    rw [hgot]
    exact List.take_prefix _ _

theorem small (h : Flow r sent got) : r.SizeOfBuffer < 2 ^ 31 := by
  cases h with
  | zeroed he =>
    rw [he]
    decide
  | up hinv => exact hinv.small

/-- a buffer that has been set up -/
theorem inv (h : Flow r sent got) (hsize : 0 < r.SizeOfBuffer) :
    r.Inv sent got.length ∧ r.WrOff < r.SizeOfBuffer := by
  cases h with
  | zeroed he =>
    subst he
    exact absurd hsize (Nat.lt_irrefl 0)
  | up hinv hgot hwr hrd => exact ⟨hinv, hwr⟩

/-- the reader takes the next bytes -/
theorem read (h : Flow r sent got) {ask : Nat} (hask : ask < 2 ^ 31) :
    ∃ r', r.read ask = .ok (r', (sent.drop got.length).take ask) ∧
      Flow r' sent (got ++ (sent.drop got.length).take ask) ∧ r.SameConfig r' := by
  cases h with
  | zeroed he =>
    subst he
    have hnil : ([] : List Byte).drop ([] : List Byte).length = [] := rfl
    rw [hnil, List.take_nil]
    exact ⟨.zeroed, zeroed_read hask, Flow.zeroed rfl, rfl, rfl, rfl⟩
  | up hinv hgot hwr hrd =>
    obtain ⟨rd, hread, hinv'⟩ := hinv.read hask
    have hlt := RING_BUFFER.read_lt hwr hrd hread
    obtain ⟨bs, hbs⟩ : ∃ bs, bs = (sent.drop got.length).take ask := ⟨_, rfl⟩
    have hlen : bs.length = min ask (sent.length - got.length) := by
      rw [hbs, List.length_take, List.length_drop]
    rw [← hbs] at hread ⊢
    rw [← hlen] at hinv'
    refine ⟨_, hread, Flow.up ?_ (got_next hgot ?_) hwr hlt, rfl, rfl, rfl⟩
    · rw [List.length_append]
      exact hinv'
    · rw [hlen, hbs, List.take_eq_take_iff, List.length_drop]
      omega

/-- A call of `SEGGER_RTT_Write` still waits, or it has stored what was accepted. -/
theorem write (h : Flow r sent got) {data : List Byte} (hlen : data.length < 2 ^ 31) {host : List Nat}
    (hask : ∀ ask ∈ host, ask < 2 ^ 31) :
    r.write data host = .error .waiting ∨ ∃ w f, r.write data host = .ok w ∧
      Flow w.ring (sent ++ data.take w.NumBytesWritten) (got ++ w.taken) ∧ r.SameConfig w.ring ∧
      w.host <:+ host ∧ w.NumBytesWritten = accepted r.mode f data.length ∧ r.free sent got.length ≤ f ∧
      w.taken.length ≤ host.sum := by
  cases h with
  | zeroed he =>
    subst he
    cases host with
    | nil => exact Or.inl rfl
    | cons ask host =>
      obtain ⟨hhd, -⟩ := List.forall_mem_cons.mp hask
      refine Or.inr ⟨_, 0, zeroed_write hhd hlen, ?_, ⟨rfl, rfl, rfl⟩, List.suffix_cons ask host, ?_, Nat.le_refl 0,
        Nat.zero_le _⟩
      · show Flow .zeroed ([] ++ data.take 0) ([] ++ [])
        rw [List.take_zero]
        exact Flow.zeroed rfl
      · have hmode : RING_BUFFER.zeroed.mode = 0 := rfl
        show 0 = accepted RING_BUFFER.zeroed.mode 0 data.length
        rw [hmode]
        unfold accepted
        rw [if_neg (by decide)]
        split
        · omega
        · rfl
  | up hinv hgot hwr hrd =>
    obtain hwait | ⟨w, hok, hnum, hst, hsuf, hsum⟩ := hinv.write hwr hlen hask
    · exact Or.inl hwait
    · refine Or.inr ⟨w, _, hok, ?_, hst.config, hsuf, hnum, ?_, hsum⟩
      · have hle := hinv.le
        have hgot' : got = (sent ++ data.take w.NumBytesWritten).take got.length := by
          rw [List.take_append_of_le_length hle]
          exact hgot
        refine Flow.up ?_ (got_next hgot' hst.taken) hst.ready (hst.rd hrd)
        rw [List.length_append]
        exact hst.inv
      · unfold RING_BUFFER.free
        omega

/-- a call that must not block returns after three moves of the reader -/
theorem returns (h : Flow r sent got) {data : List Byte} (hlen : data.length < 2 ^ 31) {host : List Nat}
    (hask : ∀ ask ∈ host, ask < 2 ^ 31) (hmode : r.mode ≠ SEGGER_RTT_MODE_BLOCK_IF_FIFO_FULL)
    (hthree : 3 ≤ host.length) : ∃ w, r.write data host = .ok w ∧ host.length ≤ w.host.length + 3 := by
  cases h with
  | zeroed he =>
    subst he
    obtain ⟨ask, host, rfl⟩ := List.exists_cons_of_length_pos (by omega : 0 < host.length)
    obtain ⟨hhd, -⟩ := List.forall_mem_cons.mp hask
    refine ⟨_, zeroed_write hhd hlen, ?_⟩
    rw [List.length_cons]
    show host.length + 1 ≤ host.length + 3
    omega
  | up hinv hgot hwr hrd => exact write_returns hinv hwr hlen hask hmode hthree

end Flow

/-- Every buffer of either direction is between calls, those of channel 0 are set up, the active terminal is
one of the 16, and the host asks for less than an int holds. -/
structure Target.Ok (s : Target) : Prop where
  up : ∀ i r, s.cb.aUp[i]? = some r → Flow r (s.sent i) (s.got i)
  down : ∀ i r, s.cb.aDown[i]? = some r → Flow r (s.typed i) (s.keys i)
  ups : s.cb.aUp.length = s.cb.MaxNumUpBuffers
  downs : s.cb.aDown.length = s.cb.MaxNumDownBuffers
  maxUp : s.cb.MaxNumUpBuffers = SEGGER_RTT_MAX_NUM_UP_BUFFERS
  maxDown : s.cb.MaxNumDownBuffers = SEGGER_RTT_MAX_NUM_DOWN_BUFFERS
  up0 : ∀ r, s.cb.aUp[0]? = some r → 0 < r.SizeOfBuffer
  down0 : ∀ r, s.cb.aDown[0]? = some r → 0 < r.SizeOfBuffer
  active : s._ActiveTerminal < 16
  host : ∀ ask ∈ s.host, ask < 2 ^ 31

theorem RING_BUFFER.fresh_terminal {size : Nat} (hpos : 0 < size) (hsmall : size < 2 ^ 31) :
    Flow (.terminal size) [] [] := by
  refine Flow.up ⟨List.length_replicate, hsmall, Nat.le_refl 0, hpos, At.zero _, At.zero _, fun i _ hi => ?_,
    fun he => ?_⟩ rfl hpos hpos
  · exact absurd hi (Nat.not_lt_zero i)
  · have hz : 0 = size := he
    omega

theorem Target.ok_init {host : List Nat} (hask : ∀ ask ∈ host, ask < 2 ^ 31) : (Target.init host).Ok where
  up i r hr := by
    match i, hr with
    | 0, hr =>
      cases hr
      exact RING_BUFFER.fresh_terminal (by decide) (by decide)
    | 1, hr =>
      cases hr
      exact Flow.zeroed rfl
  down i r hr := by
    match i, hr with
    | 0, hr =>
      cases hr
      exact RING_BUFFER.fresh_terminal (by decide) (by decide)
  ups := rfl
  downs := rfl
  maxUp := rfl
  maxDown := rfl
  up0 r hr := by
    cases hr
    decide
  down0 r hr := by
    cases hr
    decide
  active := by
    show (0 : Byte) < 16
    decide
  host := hask

/-! ## what a call of `SEGGER_RTT_Write` leads to -/

/-- the bytes that still go into up-buffer `i` -/
def Target.free (s : Target) (i : Nat) : Nat :=
  match s.cb.aUp[i]? with
  | some r => r.free (s.sent i) (s.got i).length
  | none => 0

def Target.mode (s : Target) (i : Nat) : Nat :=
  match s.cb.aUp[i]? with
  | some r => r.mode
  | none => 0

/-- From `s` to `s'` the target sends `bs` over up-buffer `i`, and the host reads there; nothing else
changes. -/
structure Target.Sends (s : Target) (i : Nat) (bs : List Byte) (s' : Target) : Prop where
  ok : s'.Ok
  sent : s'.sent = extend s.sent i bs
  got : ∃ g, s'.got = extend s.got i g
  config : ∀ (j : Nat) (r : RING_BUFFER), s.cb.aUp[j]? = some r →
    ∃ r', s'.cb.aUp[j]? = some r' ∧ r.SameConfig r'
  ups : s'.cb.aUp.length = s.cb.aUp.length
  others : ∀ j : Nat, j ≠ i → s'.cb.aUp[j]? = s.cb.aUp[j]?
  down : s'.cb.aDown = s.cb.aDown ∧ s'.typed = s.typed ∧ s'.keys = s.keys
  terminal : s'._ActiveTerminal = s._ActiveTerminal
  host : s'.host <:+ s.host

section
variable {s s' s'' : Target} {i : Nat}

theorem extend_extend (f : Nat → List Byte) (i : Nat) (bs bs' : List Byte) :
    extend (extend f i bs) i bs' = extend f i (bs ++ bs') := by
  unfold extend
  rw [Function.update_self, Function.update_idem, List.append_assoc]

theorem extend_nil (f : Nat → List Byte) (i : Nat) : extend f i [] = f := by
  unfold extend
  rw [List.append_nil, Function.update_eq_self]

theorem extend_self (f : Nat → List Byte) (i : Nat) (bs : List Byte) : extend f i bs i = f i ++ bs := by
  unfold extend
  rw [Function.update_self]

theorem extend_ne (f : Nat → List Byte) {i j : Nat} (h : j ≠ i) (bs : List Byte) : extend f i bs j = f j := by
  unfold extend
  rw [Function.update_of_ne h]

namespace Target.Sends

theorem refl (h : s.Ok) (i : Nat) : s.Sends i [] s where
  ok := h
  sent := (extend_nil _ _).symm
  got := ⟨[], (extend_nil _ _).symm⟩
  config _ r hr := ⟨r, hr, rfl, rfl, rfl⟩
  ups := rfl
  others _ _ := rfl
  down := ⟨rfl, rfl, rfl⟩
  terminal := rfl
  host := List.suffix_refl _

theorem trans {bs bs' : List Byte} (h : s.Sends i bs s') (h' : s'.Sends i bs' s'') :
    s.Sends i (bs ++ bs') s'' where
  ok := h'.ok
  sent := by rw [h'.sent, h.sent, extend_extend]
  got := by
    obtain ⟨g, hg⟩ := h.got
    obtain ⟨g', hg'⟩ := h'.got
    exact ⟨g ++ g', by rw [hg', hg, extend_extend]⟩
  config j r hr := by
    obtain ⟨r', hr', hcfg⟩ := h.config j r hr
    obtain ⟨r'', hr'', hcfg'⟩ := h'.config j r' hr'
    exact ⟨r'', hr'', hcfg.trans hcfg'⟩
  ups := h'.ups.trans h.ups
  others j hj := (h'.others j hj).trans (h.others j hj)
  down := ⟨h'.down.1.trans h.down.1, h'.down.2.1.trans h.down.2.1, h'.down.2.2.trans h.down.2.2⟩
  terminal := h'.terminal.trans h.terminal
  host := h'.host.trans h.host

theorem mode_eq {bs : List Byte} (h : s.Sends i bs s') (hi : i < s.cb.aUp.length) : s'.mode i = s.mode i := by
  obtain ⟨r', hr', hcfg⟩ := h.config i _ (List.getElem?_eq_getElem hi)
  unfold Target.mode
  rw [hr', List.getElem?_eq_getElem hi]
  exact hcfg.mode_eq

/-- the host only makes room -/
theorem free_le {bs : List Byte} (h : s.Sends i bs s') (hi : i < s.cb.aUp.length) :
    s.free i ≤ s'.free i + bs.length := by
  obtain ⟨r', hr', hcfg⟩ := h.config i _ (List.getElem?_eq_getElem hi)
  obtain ⟨g, hg⟩ := h.got
  unfold Target.free RING_BUFFER.free
  rw [hr', List.getElem?_eq_getElem hi, h.sent, hg, extend_self, extend_self, List.length_append,
    List.length_append]
  dsimp only
  rw [hcfg.2.1]
  omega

end Target.Sends

/-- A call of `SEGGER_RTT_Write` still waits, or it has sent what was accepted and returns the number. -/
theorem write_sends (h : s.Ok) (hi : i < s.cb.aUp.length) {data : List Byte} (hlen : data.length < 2 ^ 31) :
    SEGGER_RTT_Write i data s = .error .waiting s ∨ ∃ n s' f, SEGGER_RTT_Write i data s = .ok n s' ∧
      s.Sends i (data.take n) s' ∧ n = accepted (s.mode i) f data.length ∧ s.free i ≤ f := by
  obtain ⟨r, hr⟩ : ∃ r, s.cb.aUp[i]? = some r := ⟨_, List.getElem?_eq_getElem hi⟩
  obtain hwait | ⟨w, f, hok, hflow, hcfg, hsuf, hnum, hfree, -⟩ := (h.up i r hr).write hlen h.host
  · exact Or.inl (by simp only [SEGGER_RTT_Write, hr, hwait])
  · obtain ⟨s', hs'⟩ : ∃ s', s' = { s with
        cb := { s.cb with aUp := s.cb.aUp.set i w.ring }
        host := w.host
        sent := extend s.sent i (data.take w.NumBytesWritten)
        got := extend s.got i w.taken } := ⟨_, rfl⟩
    have hself : (s.cb.aUp.set i w.ring)[i]? = some w.ring := List.getElem?_set_self hi
    have hother : ∀ j, j ≠ i → (s.cb.aUp.set i w.ring)[j]? = s.cb.aUp[j]? := fun j hj =>
      List.getElem?_set_ne (Ne.symm hj)
    have hup : ∀ j r', (s.cb.aUp.set i w.ring)[j]? = some r' →
        Flow r' (extend s.sent i (data.take w.NumBytesWritten) j) (extend s.got i w.taken j) := by
      intro j r' hr'
      by_cases hj : j = i
      · subst hj
        rw [hself] at hr'
        cases hr'
        rw [extend_self, extend_self]
        exact hflow
      · rw [hother j hj] at hr'
        rw [extend_ne _ hj, extend_ne _ hj]
        exact h.up j r' hr'
    refine Or.inr ⟨w.NumBytesWritten, s', f, by simp only [SEGGER_RTT_Write, hr, hok, hs'], ?_, ?_, ?_⟩
    · rw [hs']
      refine ⟨⟨hup, h.down, ?_, h.downs, h.maxUp, h.maxDown, fun r' hr' => ?_, h.down0,
        h.active, fun ask ha => h.host ask (hsuf.subset ha)⟩, rfl, ⟨w.taken, rfl⟩, fun j r' hr' => ?_, List.length_set, hother,
        ⟨rfl, rfl, rfl⟩, rfl, hsuf⟩
      · rw [List.length_set]
        exact h.ups
      · by_cases hi0 : i = 0
        · subst hi0
          cases hself.symm.trans hr'
          rw [hcfg.2.1]
          exact h.up0 r hr
        · exact h.up0 r' ((hother 0 (Ne.symm hi0)).symm.trans hr')
      · by_cases hj : j = i
        · subst hj
          rw [hr] at hr'
          cases hr'
          exact ⟨w.ring, hself, hcfg⟩
        · exact ⟨r', (hother j hj).trans hr', rfl, rfl, rfl⟩
    · unfold Target.mode
      rw [hr]
      exact hnum
    · unfold Target.free
      rw [hr]
      exact hfree

theorem Target.Ok.free_lt (h : s.Ok) (i : Nat) : s.free i < 2 ^ 31 := by
  unfold Target.free
  cases hr : s.cb.aUp[i]? with
  | none =>
    show 0 < 2 ^ 31
    decide
  | some r =>
    show r.SizeOfBuffer - 1 - _ < 2 ^ 31
    have hsmall := (h.up i r hr).small
    omega

/-- Data that fits is sent as a whole. -/
theorem write_whole (h : s.Ok) (hi : i < s.cb.aUp.length) {data : List Byte} (hfits : data.length ≤ s.free i)
    {n : Nat} (hr : SEGGER_RTT_Write i data s = .ok n s') : n = data.length ∧ s.Sends i data s' := by
  have hlt := h.free_lt i
  obtain hwait | ⟨n', s1, f, hrun, hsends, hn, hf⟩ := write_sends h hi (by omega : data.length < 2 ^ 31)
  · rw [hwait] at hr
    cases hr
  · rw [hrun] at hr
    cases hr
    have hacc : accepted (s.mode i) f data.length = data.length := by
      unfold accepted
      rw [if_pos (by omega : data.length ≤ f), ite_self]
    rw [hacc] at hn
    rw [hn, List.take_length] at hsends
    exact ⟨hn, hsends⟩

/-- One that must not block returns if the host has three more moves to make. -/
theorem write_sends_returns (h : s.Ok) (hi : i < s.cb.aUp.length) {data : List Byte}
    (hlen : data.length < 2 ^ 31) (hmode : s.mode i ≠ SEGGER_RTT_MODE_BLOCK_IF_FIFO_FULL)
    (hthree : 3 ≤ s.host.length) :
    ∃ n s', SEGGER_RTT_Write i data s = .ok n s' ∧ s.host.length ≤ s'.host.length + 3 := by
  obtain ⟨r, hr⟩ : ∃ r, s.cb.aUp[i]? = some r := ⟨_, List.getElem?_eq_getElem hi⟩
  have hmode' : r.mode ≠ SEGGER_RTT_MODE_BLOCK_IF_FIFO_FULL := by
    unfold Target.mode at hmode
    rw [hr] at hmode
    exact hmode
  obtain ⟨w, hok, hhost⟩ := (h.up i r hr).returns hlen h.host hmode' hthree
  exact ⟨w.NumBytesWritten, _, by simp only [SEGGER_RTT_Write, hr, hok]; rfl, hhost⟩

end

end Rtt
end Pharoah
