import Pharoah.Lib.Cells

/-!
# Ring buffers

`RING_BUFFER`, `SEGGER_RTT_Read` and `SEGGER_RTT_Write` in `rtt/SEGGER_RTT.c`, for one buffer.  One
side writes it and the other reads it: the target writes an up-buffer and reads a down-buffer.  Each
side loads the other's offset and stores its own, and nothing else is shared.

* `RING_BUFFER`     the descriptor, with the bytes at `pBuffer`;
* `Reading`         the locals of a call of `SEGGER_RTT_Read`; `first`, `rest`, `finish` are its parts;
* `read`            a whole call, if the writer stands still;
* `room`, `fitting`, `turn`, `publish`, `wrap`  the parts of `SEGGER_RTT_Write`;
* `writeLoop`, `write`  a whole call, where the reader may move before each load of `RdOff`;
* `Inv r sent k`    the ring holds the bytes of the stream `sent` from the `k`-th on;
* `Reading.Ok`      what holds in the course of a call of `SEGGER_RTT_Read`;
* `Inv.read`        a call returns the next bytes of the stream, as many as there are and fit.
-/

namespace Pharoah
namespace Rtt

open Cells

abbrev Byte := UInt8

structure RING_BUFFER where
  sName : String
  pBuffer : List Byte
  SizeOfBuffer : Nat
  WrOff : Nat
  RdOff : Nat
  Flags : Nat
deriving DecidableEq, Repr

def SEGGER_RTT_MODE_MASK : Nat := 3
def SEGGER_RTT_MODE_NO_BLOCK_SKIP : Nat := 0
def SEGGER_RTT_MODE_NO_BLOCK_TRIM : Nat := 1
def SEGGER_RTT_MODE_BLOCK_IF_FIFO_FULL : Nat := 2

/-- How a call ends that does not return: it still waits when the reader's moves are used up, or it
leaves the bytes it may touch. -/
inductive Stop
  | waiting
  | fault
deriving DecidableEq, Repr

/-- `(int)n` of an unsigned `n` -/
def int (n : Nat) : Int := if n < 2 ^ 31 then n else n - 2 ^ 32

/-- `(unsigned)n` of an int `n` -/
def unsigned (n : Int) : Nat := if 0 ≤ n then n.toNat else (n + 2 ^ 32).toNat

/-- `memcpy` of `n` bytes out of the bytes `mem` -/
def memcpyFrom (mem : List Byte) (off : Nat) (n : Int) : Except Stop (List Byte) :=
  if 0 ≤ n ∧ off + n.toNat ≤ mem.length then .ok (slice mem off n.toNat) else .error .fault

/-- `memcpy` of the bytes `bs` into the bytes `mem` -/
def memcpyTo (mem : List Byte) (off : Nat) (bs : List Byte) : Except Stop (List Byte) :=
  if off + bs.length ≤ mem.length then .ok (splice mem off bs) else .error .fault

/-! ## `SEGGER_RTT_Read` -/

/-- the locals of a call, with the bytes it has copied to the caller; `NumBytesRead` counts them -/
structure Reading where
  RdOff : Nat
  WrOff : Nat
  BufferSize : Nat
  out : List Byte
deriving DecidableEq, Repr

namespace Reading

def start (r : RING_BUFFER) (BufferSize : Nat) : Reading := ⟨r.RdOff, r.WrOff, BufferSize, []⟩

/-- from the read position to the wrap-around -/
def first (r : RING_BUFFER) (l : Reading) : Except Stop Reading :=
  if l.RdOff > l.WrOff then do
    let NumBytesRem := min ((r.SizeOfBuffer : Int) - l.RdOff) (int l.BufferSize)
    let bs ← memcpyFrom r.pBuffer l.RdOff NumBytesRem
    let RdOff := l.RdOff + bs.length
    return { l with
      RdOff := if RdOff = r.SizeOfBuffer then 0 else RdOff
      BufferSize := l.BufferSize - bs.length
      out := l.out ++ bs }
  else
    return l

/-- the remaining items -/
def rest (r : RING_BUFFER) (l : Reading) : Except Stop Reading :=
  let NumBytesRem := min ((l.WrOff : Int) - l.RdOff) (int l.BufferSize)
  if NumBytesRem > 0 then do
    let bs ← memcpyFrom r.pBuffer l.RdOff NumBytesRem
    return { l with
      RdOff := l.RdOff + bs.length
      BufferSize := l.BufferSize - bs.length
      out := l.out ++ bs }
  else
    return l

/-- the store of `RdOff` -/
def finish (r : RING_BUFFER) (l : Reading) : RING_BUFFER :=
  if l.out.length ≠ 0 then { r with RdOff := l.RdOff } else r

end Reading

namespace RING_BUFFER

def read (r : RING_BUFFER) (BufferSize : Nat) : Except Stop (RING_BUFFER × List Byte) := do
  let l ← (Reading.start r BufferSize).first r
  let l ← l.rest r
  return (l.finish r, l.out)

/-! ## `SEGGER_RTT_Write` -/

def mode (r : RING_BUFFER) : Nat := r.Flags &&& SEGGER_RTT_MODE_MASK

/-- `RdOff - WrOff - 1`, and the size more if that is negative -/
def room (r : RING_BUFFER) (RdOff : Nat) : Int :=
  let NumBytesToWrite : Int := RdOff - r.WrOff - 1
  if NumBytesToWrite < 0 then NumBytesToWrite + r.SizeOfBuffer else NumBytesToWrite

/-- how many of the bytes a call that must not block sets out to store -/
def fitting (r : RING_BUFFER) (RdOff NumBytes : Nat) : Nat :=
  let NumBytesToWrite := r.room RdOff
  if int NumBytes > NumBytesToWrite then
    if r.mode = SEGGER_RTT_MODE_NO_BLOCK_SKIP then 0 else unsigned NumBytesToWrite
  else
    NumBytes

/-- how many bytes one turn of the loop copies -/
def turn (r : RING_BUFFER) (RdOff NumBytes : Nat) : Int :=
  min (min (r.room RdOff) ((r.SizeOfBuffer : Int) - r.WrOff)) (int NumBytes)

/-- `WrOff += n` -/
def publish (r : RING_BUFFER) (n : Nat) : RING_BUFFER := { r with WrOff := r.WrOff + n }

def wrap (r : RING_BUFFER) : RING_BUFFER :=
  if r.WrOff = r.SizeOfBuffer then { r with WrOff := 0 } else r

/-- What is left of a call of `SEGGER_RTT_Write`: the buffer, the moves of the reader that are still
to come, the bytes that it took meanwhile, and `NumBytesWritten`. -/
structure Wrote where
  ring : RING_BUFFER
  host : List Nat
  taken : List Byte
  NumBytesWritten : Nat
deriving DecidableEq, Repr

/-- The loop.  Before each load of `RdOff` the reader makes its next move: it asks for that many
bytes. -/
def writeLoop : List Nat → RING_BUFFER → List Byte → Nat → Nat → List Byte → Except Stop Wrote
  | [], _, _, _, _, _ => .error .waiting
  | ask :: host, r, pBuffer, NumBytes, NumBytesWritten, taken => do
    let (r, bs) ← r.read ask
    let NumBytesToWrite := r.turn r.RdOff NumBytes
    let chunk ← memcpyFrom pBuffer 0 NumBytesToWrite
    let mem ← memcpyTo r.pBuffer r.WrOff chunk
    let r := (publish { r with pBuffer := mem } chunk.length).wrap
    if NumBytes - chunk.length = 0 then
      return ⟨r, host, taken ++ bs, NumBytesWritten + chunk.length⟩
    else
      writeLoop host r (pBuffer.drop chunk.length) (NumBytes - chunk.length)
        (NumBytesWritten + chunk.length) (taken ++ bs)

/-- A call that stores the bytes `pBuffer`. -/
def write (r : RING_BUFFER) (pBuffer : List Byte) (host : List Nat) : Except Stop Wrote :=
  if r.mode ≠ SEGGER_RTT_MODE_BLOCK_IF_FIFO_FULL then
    match host with
    | [] => .error .waiting
    | ask :: host => do
      let (r, bs) ← r.read ask
      let NumBytes := r.fitting r.RdOff pBuffer.length
      if NumBytes = 0 then return ⟨r, host, bs, 0⟩ else writeLoop host r pBuffer NumBytes 0 bs
  else if pBuffer.length = 0 then
    .ok ⟨r, host, [], 0⟩
  else
    writeLoop host r pBuffer pBuffer.length 0 []

end RING_BUFFER

/-! ## the stream in the buffer -/

/-- The ring holds the bytes of the stream `sent` from the `k`-th on, and those before have been read.
While `WrOff` is still to be wrapped, `RdOff` is not at the start. -/
structure RING_BUFFER.Inv (r : RING_BUFFER) (sent : List Byte) (k : Nat) : Prop where
  size : r.pBuffer.length = r.SizeOfBuffer
  small : r.SizeOfBuffer < 2 ^ 31
  le : k ≤ sent.length
  fits : sent.length - k < r.SizeOfBuffer
  wr : At r.SizeOfBuffer sent.length r.WrOff
  rd : At r.SizeOfBuffer k r.RdOff
  held : Holds r.pBuffer sent k
  ahead : r.WrOff = r.SizeOfBuffer → 0 < r.RdOff

/-- In the course of a call that reads from the `k`-th byte on and has seen `w` bytes sent. -/
structure Reading.Ok (r : RING_BUFFER) (sent : List Byte) (k w : Nat) (l : Reading) : Prop where
  seen : w ≤ sent.length
  wr : At r.SizeOfBuffer w l.WrOff
  ahead : l.WrOff = r.SizeOfBuffer → 0 < l.RdOff
  fresh : w = sent.length → r.WrOff = r.SizeOfBuffer → l.WrOff = r.SizeOfBuffer
  rd : At r.SizeOfBuffer (k + l.out.length) l.RdOff
  le : k + l.out.length ≤ w
  out : l.out = (sent.drop k).take l.out.length
  ask : l.BufferSize < 2 ^ 31

/-! ## the parts of a call -/

theorem int_eq {n : Nat} (h : n < 2 ^ 31) : int n = n := if_pos h

theorem memcpyFrom_eq {mem : List Byte} {off n : Nat} (h : off + n ≤ mem.length) :
    memcpyFrom mem off n = .ok (slice mem off n) := if_pos ⟨Int.natCast_nonneg n, h⟩

theorem memcpyTo_eq {mem bs : List Byte} {off : Nat} (h : off + bs.length ≤ mem.length) :
    memcpyTo mem off bs = .ok (splice mem off bs) := if_pos h

section
variable {r : RING_BUFFER} {sent : List Byte} {k w : Nat} {l : Reading}

/-- two cells for one number of items: they are the start and the end -/
theorem RING_BUFFER.Inv.eq_of_start (h : r.Inv sent k) {i p : Nat} (hi : k ≤ i) (hle : i ≤ sent.length)
    (hat : At r.SizeOfBuffer i p) (hp : p = 0) (hwr : r.WrOff = r.SizeOfBuffer) : i = sent.length := by
  have h1 : Nat.ModEq r.SizeOfBuffer i sent.length := by
    rw [Nat.ModEq, ← hat.2, ← h.wr.2, hp, hwr, Nat.mod_self, Nat.zero_mod]
  have h2 : r.SizeOfBuffer ∣ sent.length - i := (Nat.modEq_iff_dvd' hle).mp h1
  have h3 := h.fits
  by_contra hne
  have h4 := Nat.le_of_dvd (by omega) h2
  omega

namespace Reading.Ok

theorem start (h : r.Inv sent k) {ask : Nat} (hask : ask < 2 ^ 31) :
    Ok r sent k sent.length (Reading.start r ask) where
  seen := Nat.le_refl _
  wr := h.wr
  ahead := h.ahead
  fresh _ hw := hw
  rd := h.rd
  le := h.le
  out := rfl
  ask := hask

/-- the cells that are still to be read -/
theorem ahead_rest (h : r.Inv sent k) (hl : Ok r sent k w l) :
    Cells.ahead r.SizeOfBuffer l.RdOff l.WrOff = w - (k + l.out.length) := by
  have h1 := h.fits
  have h2 := hl.seen
  exact ahead_eq hl.rd hl.wr hl.le (by omega) hl.ahead

/-- The next `n` bytes of the stream are copied. -/
theorem copied (h : r.Inv sent k) (hl : Ok r sent k w l) {n : Nat} (hn : k + l.out.length + n ≤ w)
    (hrd : l.RdOff + n ≤ r.SizeOfBuffer) :
    memcpyFrom r.pBuffer l.RdOff n = .ok (slice r.pBuffer l.RdOff n) ∧
      (slice r.pBuffer l.RdOff n).length = n ∧
      l.out ++ slice r.pBuffer l.RdOff n = (sent.drop k).take (l.out.length + n) := by
  have hsize := h.size
  have hseen := hl.seen
  refine ⟨memcpyFrom_eq (by omega), length_slice (by omega), ?_⟩
  have hat : At r.pBuffer.length (k + l.out.length) l.RdOff := hsize ▸ hl.rd
  rw [h.held.slice (by omega) (by omega) hat (by omega), List.take_add, ← hl.out, List.drop_drop]

/-- The reading goes on behind them. -/
theorem advance (h : r.Inv sent k) (hl : Ok r sent k w l) {n p : Nat} (hn : k + l.out.length + n ≤ w)
    (hrd : l.RdOff + n ≤ r.SizeOfBuffer) (hp : At r.SizeOfBuffer (k + l.out.length + n) p)
    (hpos : l.WrOff = r.SizeOfBuffer → 0 < p) :
    Ok r sent k w ⟨p, l.WrOff, l.BufferSize - n, l.out ++ slice r.pBuffer l.RdOff n⟩ := by
  obtain ⟨-, hlen, hout⟩ := hl.copied h hn hrd
  have hask := hl.ask
  have hlen' : (l.out ++ slice r.pBuffer l.RdOff n).length = l.out.length + n := by
    rw [List.length_append, hlen]
  refine ⟨hl.seen, hl.wr, hpos, hl.fresh, ?_, ?_, ?_, ?_⟩
  · rw [hlen', ← Nat.add_assoc]
    exact hp
  · rw [hlen']
    omega
  · rw [hlen']
    exact hout
  · show l.BufferSize - n < 2 ^ 31
    omega

theorem first (h : r.Inv sent k) (hl : Ok r sent k w l) :
    ∃ l', l.first r = .ok l' ∧ Ok r sent k w l' ∧
      l'.BufferSize + l'.out.length = l.BufferSize + l.out.length ∧
      (l'.BufferSize = 0 ∨ l'.RdOff ≤ l'.WrOff) := by
  have hask := hl.ask
  have hrd := hl.rd.1
  have hle := hl.le
  by_cases hgt : l.RdOff > l.WrOff
  · have hahead := hl.ahead_rest h
    rw [Cells.ahead, if_neg (by omega)] at hahead
    obtain ⟨n, hn⟩ : ∃ n : Nat, n = min (r.SizeOfBuffer - l.RdOff) l.BufferSize := ⟨_, rfl⟩
    have hmin : min ((r.SizeOfBuffer : Int) - l.RdOff) (int l.BufferSize) = n := by
      rw [int_eq hask]
      omega
    obtain ⟨hcopy, hlen, -⟩ := hl.copied h (n := n) (by omega) (by omega)
    have hat := hl.rd.add (n := n) (by omega)
    obtain ⟨p, hp⟩ : ∃ p, p = if l.RdOff + n = r.SizeOfBuffer then 0 else l.RdOff + n := ⟨_, rfl⟩
    have hatp : At r.SizeOfBuffer (k + l.out.length + n) p := by
      rw [hp]
      split
      · next he => exact (he ▸ hat).wrap
      · exact hat
    refine ⟨_, ?_, hl.advance h (by omega) (by omega) hatp (fun hw => by omega), ?_, ?_⟩
    · simp only [Reading.first, if_pos hgt, hmin, hcopy, bind, Except.bind, pure, Except.pure, hlen, hp]
    · show l.BufferSize - n + (l.out ++ slice r.pBuffer l.RdOff n).length = _
      rw [List.length_append, hlen]
      omega
    · show l.BufferSize - n = 0 ∨ p ≤ l.WrOff
      by_cases he : l.RdOff + n = r.SizeOfBuffer
      · rw [if_pos he] at hp
        exact Or.inr (by omega)
      · exact Or.inl (by omega)
  · refine ⟨l, ?_, hl, rfl, Or.inr (by omega)⟩
    rw [Reading.first, if_neg hgt]
    rfl

theorem rest (h : r.Inv sent k) (hl : Ok r sent k w l) (hle : l.BufferSize = 0 ∨ l.RdOff ≤ l.WrOff) :
    ∃ l', l.rest r = .ok l' ∧ Ok r sent k w l' ∧
      l'.BufferSize + l'.out.length = l.BufferSize + l.out.length ∧
      (l'.BufferSize = 0 ∨ k + l'.out.length = w) := by
  have hask := hl.ask
  have hwr := hl.wr.1
  have hk := hl.le
  have hahead := hl.ahead_rest h
  by_cases hpos : min ((l.WrOff : Int) - l.RdOff) (int l.BufferSize) > 0
  · rw [int_eq hask] at hpos
    rw [Cells.ahead, if_pos (by omega)] at hahead
    obtain ⟨n, hn⟩ : ∃ n : Nat, n = min (l.WrOff - l.RdOff) l.BufferSize := ⟨_, rfl⟩
    have hmin : min ((l.WrOff : Int) - l.RdOff) (int l.BufferSize) = n := by
      rw [int_eq hask]
      omega
    obtain ⟨hcopy, hlen, -⟩ := hl.copied h (n := n) (by omega) (by omega)
    have hat := hl.rd.add (n := n) (by omega)
    refine ⟨_, ?_, hl.advance h (by omega) (by omega) hat (fun hw => by omega), ?_, ?_⟩
    · have hn0 : (n : Int) > 0 := by omega
      simp only [Reading.rest, hmin, if_pos hn0, hcopy, bind, Except.bind, pure, Except.pure, hlen]
    · show l.BufferSize - n + (l.out ++ slice r.pBuffer l.RdOff n).length = _
      rw [List.length_append, hlen]
      omega
    · show l.BufferSize - n = 0 ∨ k + (l.out ++ slice r.pBuffer l.RdOff n).length = w
      rw [List.length_append, hlen]
      omega
  · refine ⟨l, ?_, hl, rfl, ?_⟩
    · simp only [Reading.rest, if_neg hpos]
      rfl
    · rw [int_eq hask] at hpos
      obtain hle | hle := hle
      · exact Or.inl hle
      · rw [Cells.ahead, if_pos hle] at hahead
        omega

/-- The store of `RdOff` gives up what has been copied. -/
theorem finish (h : r.Inv sent k) (hl : Ok r sent k w l) :
    (l.finish r).Inv sent (k + l.out.length) := by
  have hk := hl.le
  have hseen := hl.seen
  have hfits := h.fits
  by_cases hout : l.out.length = 0
  · rw [Reading.finish, if_neg (by omega), hout]
    exact h
  · rw [Reading.finish, if_pos hout]
    refine ⟨h.size, h.small, by omega, ?_, h.wr, hl.rd, h.held.mono (by omega), fun hw => ?_⟩
    · show sent.length - (k + l.out.length) < r.SizeOfBuffer
      omega
    · show 0 < l.RdOff
      by_contra hz
      have heq := h.eq_of_start (by omega) (by omega) hl.rd (by omega) hw
      have hpos := hl.ahead (hl.fresh (by omega) hw)
      omega

end Reading.Ok

end

/-- A call returns the next bytes of the stream, as many as there are and fit. -/
theorem RING_BUFFER.Inv.read {r : RING_BUFFER} {sent : List Byte} {k ask : Nat} (h : r.Inv sent k)
    (hask : ask < 2 ^ 31) :
    ∃ rd, r.read ask = .ok ({ r with RdOff := rd }, (sent.drop k).take ask) ∧
      RING_BUFFER.Inv { r with RdOff := rd } sent (k + min ask (sent.length - k)) := by
  obtain ⟨l1, h1, hl1, hs1, hb1⟩ := (Reading.Ok.start h hask).first h
  obtain ⟨l2, h2, hl2, hs2, hb2⟩ := hl1.rest h hb1
  have hask1 : l1.BufferSize + l1.out.length = ask := hs1
  have hle := hl2.le
  have hlen : l2.out.length = min ask (sent.length - k) := by omega
  have hout : l2.out = (sent.drop k).take ask := by
    rw [hl2.out, hlen]
    by_cases hlt : ask ≤ sent.length - k
    · rw [Nat.min_eq_left hlt]
    · rw [List.take_of_length_le (by rw [List.length_drop]; omega),
        List.take_of_length_le (by rw [List.length_drop]; omega)]
  obtain ⟨rd, hrd⟩ : ∃ rd, l2.finish r = { r with RdOff := rd } := by
    unfold Reading.finish
    split
    · exact ⟨_, rfl⟩
    · exact ⟨r.RdOff, rfl⟩
  refine ⟨rd, ?_, ?_⟩
  · simp only [RING_BUFFER.read, h1, bind, Except.bind, h2, hout, hrd]
    rfl
  · rw [← hrd, ← hlen]
    exact hl2.finish h

theorem length_memcpyFrom {mem bs : List Byte} {off : Nat} {n : Int} (h : memcpyFrom mem off n = .ok bs) :
    (bs.length : Int) = n := by
  unfold memcpyFrom at h
  split at h
  · next hn =>
    cases h
    rw [length_slice hn.2]
    exact Int.toNat_of_nonneg hn.1
  · cases h

/-- If the writer is not at the end, the reader does not stay there either. -/
theorem RING_BUFFER.read_lt {r r' : RING_BUFFER} {bs : List Byte} {ask : Nat} (hwr : r.WrOff < r.SizeOfBuffer)
    (hrd : r.RdOff < r.SizeOfBuffer) (h : r.read ask = .ok (r', bs)) : r'.RdOff < r'.SizeOfBuffer := by
  have hfirst : ∀ l l' : Reading, l.first r = .ok l' → l.RdOff < r.SizeOfBuffer → l.WrOff < r.SizeOfBuffer →
      l'.RdOff < r.SizeOfBuffer ∧ l'.WrOff < r.SizeOfBuffer := by
    intro l l' hl h1 h2
    unfold Reading.first at hl
    split at hl
    · cases hm : memcpyFrom r.pBuffer l.RdOff (min ((r.SizeOfBuffer : Int) - l.RdOff) (int l.BufferSize)) with
      | error e => simp only [hm, bind, Except.bind] at hl; cases hl
      | ok bs =>
        have hlen := length_memcpyFrom hm
        simp only [hm, bind, Except.bind, pure, Except.pure] at hl
        cases hl
        refine ⟨?_, h2⟩
        dsimp only
        split <;> omega
    · cases hl
      exact ⟨h1, h2⟩
  have hrest : ∀ l l' : Reading, l.rest r = .ok l' → l.RdOff < r.SizeOfBuffer → l.WrOff < r.SizeOfBuffer →
      l'.RdOff < r.SizeOfBuffer := by
    intro l l' hl h1 h2
    unfold Reading.rest at hl
    dsimp only at hl
    split at hl
    · cases hm : memcpyFrom r.pBuffer l.RdOff (min ((l.WrOff : Int) - l.RdOff) (int l.BufferSize)) with
      | error e => simp only [hm, bind, Except.bind] at hl; cases hl
      | ok bs =>
        have hlen := length_memcpyFrom hm
        simp only [hm, bind, Except.bind, pure, Except.pure] at hl
        cases hl
        show l.RdOff + bs.length < r.SizeOfBuffer
        omega
    · cases hl
      exact h1
  unfold RING_BUFFER.read at h
  cases h1 : (Reading.start r ask).first r with
  | error e => simp only [h1, bind, Except.bind] at h; cases h
  | ok l1 =>
    cases h2 : l1.rest r with
    | error e => simp only [h1, h2, bind, Except.bind] at h; cases h
    | ok l2 =>
      simp only [h1, h2, bind, Except.bind, pure, Except.pure] at h
      cases h
      obtain ⟨h3, h4⟩ := hfirst _ _ h1 hrd hwr
      have h5 := hrest _ _ h2 h3 h4
      unfold Reading.finish
      split
      · exact h5
      · exact hrd

end Rtt
end Pharoah
