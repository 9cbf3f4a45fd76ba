import Pharoah.Lib.Lts
import Pharoah.Rtt.Write

/-!
# One buffer, two sides

The calls of `SEGGER_RTT_Write` and `SEGGER_RTT_Read` on one buffer, one side each, in steps that load
or store at most one offset of the buffer.  Of an up-buffer the target is the writer, of a down-buffer
the reader; the side that is not in the repository is taken to run the other of the two functions.  The
stores of `WrOff` and of its wrap-around are two steps, so the reader may find `WrOff` at the end.

* `Chan`           the buffer, where the two calls are, and what was sent and got so far;
* `step`           one step of either side; `Chan.write` and `Chan.read` are those of the calls;
* `Good`           the invariant: each call is sound where it is, and the logs say what it did;
* `channel_good`   it holds in every state of every run;
* `channel_fifo`   **what is got is what was sent, in order; nothing is lost, doubled or overwritten**.
-/

namespace Pharoah
namespace Rtt

open Cells Lts

/-- A call of `SEGGER_RTT_Write` in its loop: the bytes it was given, `NumBytes` and `NumBytesWritten`.
`found` is the room there was when it set out (`Chan.free`), which the code does not keep. -/
structure Call where
  data : List Byte
  NumBytes : Nat
  NumBytesWritten : Nat
  found : Nat
deriving DecidableEq, Repr

/-- `pBuffer`, which moves on with the loop -/
def Call.pBuffer (k : Call) : List Byte := k.data.drop k.NumBytesWritten

/-- where the writer is -/
inductive Writing
  | idle
  | entered (data : List Byte)
  | top (k : Call)
  | loaded (k : Call) (NumBytesToWrite : Int)
  | copied (k : Call) (chunk : List Byte)
  | stored (k : Call)
  | fault
deriving DecidableEq, Repr

/-- Where the reader is; `asked` is its first `BufferSize` and `there` the unread bytes it has seen,
which the code does not keep. -/
inductive Reads
  | idle
  | loaded (asked there : Nat) (l : Reading)
  | first (asked there : Nat) (l : Reading)
  | rest (asked there : Nat) (l : Reading)
  | fault
deriving DecidableEq, Repr

/-- a call of `SEGGER_RTT_Write` that has returned -/
structure Put where
  data : List Byte
  found : Nat
  returned : Nat
deriving DecidableEq, Repr

/-- a call of `SEGGER_RTT_Read` that has returned -/
structure Got where
  asked : Nat
  there : Nat
  out : List Byte
deriving DecidableEq, Repr

/-- The buffer with its two sides.  `sent` are the bytes before the stored `WrOff`, `puts` and `gots`
the calls that have returned. -/
structure Chan where
  ring : RING_BUFFER
  writing : Writing := .idle
  reading : Reads := .idle
  sent : List Byte := []
  puts : List Put := []
  gots : List Got := []
deriving DecidableEq, Repr

/-- the bytes that reads have returned -/
def Chan.got (c : Chan) : List Byte := (c.gots.map Got.out).flatten

/-- The room there is, by what was sent and got; one byte of the buffer is not used. -/
def Chan.free (c : Chan) : Nat := c.ring.SizeOfBuffer - 1 - (c.sent.length - c.got.length)

inductive Act
  | write (pBuffer : List Byte)
  | read (BufferSize : Nat)
  | writer
  | reader
deriving DecidableEq, Repr

namespace Chan

/-- a call of `SEGGER_RTT_Write` returns -/
def putBack (c : Chan) (data : List Byte) (found returned : Nat) : Chan :=
  { c with writing := .idle, puts := c.puts ++ [⟨data, found, returned⟩] }

/-- before the loop -/
def enter (c : Chan) (data : List Byte) : Chan :=
  let NumBytes :=
    if c.ring.mode ≠ SEGGER_RTT_MODE_BLOCK_IF_FIFO_FULL then c.ring.fitting c.ring.RdOff data.length
    else data.length
  if NumBytes = 0 then c.putBack data c.free 0 else { c with writing := .top ⟨data, NumBytes, 0, c.free⟩ }

/-- `memcpy` to `WrOff` -/
def copy (c : Chan) (k : Call) (NumBytesToWrite : Int) : Chan :=
  match memcpyFrom k.pBuffer 0 NumBytesToWrite with
  | .error _ => { c with writing := .fault }
  | .ok chunk =>
    match memcpyTo c.ring.pBuffer c.ring.WrOff chunk with
    | .error _ => { c with writing := .fault }
    | .ok mem => { c with ring := { c.ring with pBuffer := mem }, writing := .copied k chunk }

/-- the store of `WrOff` -/
def store (c : Chan) (k : Call) (chunk : List Byte) : Chan :=
  { c with
    ring := c.ring.publish chunk.length
    sent := c.sent ++ chunk
    writing := .stored { k with
      NumBytes := k.NumBytes - chunk.length
      NumBytesWritten := k.NumBytesWritten + chunk.length } }

/-- the wrap-around, and the end of the turn -/
def endTurn (c : Chan) (k : Call) : Chan :=
  let c := { c with ring := c.ring.wrap }
  if k.NumBytes = 0 then c.putBack k.data k.found k.NumBytesWritten else { c with writing := .top k }

def write (c : Chan) : Option Chan :=
  match c.writing with
  | .idle => none
  | .entered data => some (c.enter data)
  | .top k => some { c with writing := .loaded k (c.ring.turn c.ring.RdOff k.NumBytes) }
  | .loaded k n => some (c.copy k n)
  | .copied k chunk => some (c.store k chunk)
  | .stored k => some (c.endTurn k)
  | .fault => none

/-- the reader goes on to a part of its call, if the one before did not fault -/
def readPart (c : Chan) (go : Reading → Reads) : Except Stop Reading → Chan
  | .ok l => { c with reading := go l }
  | .error _ => { c with reading := .fault }

def read (c : Chan) : Option Chan :=
  match c.reading with
  | .idle => none
  | .loaded asked there l => some (c.readPart (.first asked there) (l.first c.ring))
  | .first asked there l => some (c.readPart (.rest asked there) (l.rest c.ring))
  | .rest asked there l =>
    some { c with ring := l.finish c.ring, reading := .idle, gots := c.gots ++ [Got.mk asked there l.out] }
  | .fault => none

end Chan

/-- A side that is idle makes its next call, or one that is not takes its next step. -/
def step (c : Chan) : Act → Option Chan
  | .write pBuffer => if c.writing = .idle then some { c with writing := .entered pBuffer } else none
  | .read BufferSize =>
    if c.reading = .idle then
      some { c with reading := .loaded BufferSize (c.sent.length - c.got.length) (.start c.ring BufferSize) }
    else none
  | .writer => c.write
  | .reader => c.read

/-- The sizes that calls are given are not negative as an int. -/
def Act.Small : Act → Prop
  | .write pBuffer => pBuffer.length < 2 ^ 31
  | .read BufferSize => BufferSize < 2 ^ 31
  | .writer => True
  | .reader => True

/-! ## the invariant -/

/-- A call in the loop stores what was accepted when it set out. -/
structure Call.Ok (mode : Nat) (k : Call) : Prop where
  small : k.data.length < 2 ^ 31
  total : k.NumBytesWritten + k.NumBytes = accepted mode k.found k.data.length

namespace Chan

def WritingOk (c : Chan) : Prop :=
  match c.writing with
  | .idle => c.ring.WrOff < c.ring.SizeOfBuffer
  | .entered data => c.ring.WrOff < c.ring.SizeOfBuffer ∧ data.length < 2 ^ 31
  | .top k => c.ring.WrOff < c.ring.SizeOfBuffer ∧ k.Ok c.ring.mode
  | .loaded k n => c.ring.WrOff < c.ring.SizeOfBuffer ∧ k.Ok c.ring.mode ∧
      ∃ m : Nat, n = m ∧ m ≤ k.NumBytes ∧ c.ring.Fits c.sent c.got.length m
  | .copied k chunk => c.ring.WrOff < c.ring.SizeOfBuffer ∧ k.Ok c.ring.mode ∧
      chunk = k.pBuffer.take chunk.length ∧ chunk.length ≤ k.NumBytes ∧
      c.ring.Fits c.sent c.got.length chunk.length ∧ Holds c.ring.pBuffer (c.sent ++ chunk) c.got.length
  | .stored k => k.Ok c.ring.mode
  | .fault => False

/-- a call of `SEGGER_RTT_Read` between two of its parts -/
def ReadingAt (c : Chan) (asked there : Nat) (l : Reading) (parts : Prop) : Prop :=
  l.Ok c.ring c.sent c.got.length (c.got.length + there) ∧ l.BufferSize + l.out.length = asked ∧ parts

def ReadingOk (c : Chan) : Prop :=
  match c.reading with
  | .idle => True
  | .loaded asked there l => c.ReadingAt asked there l (l.out = [])
  | .first asked there l => c.ReadingAt asked there l (l.BufferSize = 0 ∨ l.RdOff ≤ l.WrOff)
  | .rest asked there l => c.ReadingAt asked there l (l.BufferSize = 0 ∨ l.out.length = there)
  | .fault => False

/-- what the call in progress has sent -/
def part (c : Chan) : List Byte :=
  match c.writing with
  | .top k | .loaded k _ | .copied k _ | .stored k => k.data.take k.NumBytesWritten
  | _ => []

/-- what the calls that have returned have sent -/
def put (c : Chan) : List Byte := (c.puts.map fun p => p.data.take p.returned).flatten

/-- The invariant. -/
structure Good (c : Chan) : Prop where
  inv : c.ring.Inv c.sent c.got.length
  got : c.got = c.sent.take c.got.length
  writing : c.WritingOk
  reading : c.ReadingOk
  sent : c.sent = c.put ++ c.part
  puts : ∀ p ∈ c.puts, p.returned = accepted c.ring.mode p.found p.data.length
  gots : ∀ g ∈ c.gots, g.out.length = min g.asked g.there

end Chan

/-! ## the writer's steps -/

/-- the reader's view of a ring that the writer has gone on with -/
theorem Reading.Ok.later {r r' : RING_BUFFER} {sent bs : List Byte} {k w : Nat} {l : Reading}
    (h : l.Ok r sent k w) (hsize : r'.SizeOfBuffer = r.SizeOfBuffer)
    (hwr : bs = [] → r'.WrOff = r'.SizeOfBuffer → r.WrOff = r.SizeOfBuffer) :
    l.Ok r' (sent ++ bs) k w := by
  have hseen := h.seen
  have hle := h.le
  refine ⟨by rw [List.length_append]; omega, hsize ▸ h.wr, hsize ▸ h.ahead, fun hw he => ?_, hsize ▸ h.rd,
    h.le, ?_, h.ask⟩
  · rw [List.length_append] at hw
    have hbs : bs = [] := List.eq_nil_of_length_eq_zero (by omega)
    rw [hbs, List.length_nil] at hw
    rw [hsize]
    exact h.fresh hw (hwr hbs he)
  · rw [List.drop_append_of_le_length (by omega),
      List.take_append_of_le_length (by rw [List.length_drop]; omega)]
    exact h.out

namespace Chan

variable {c : Chan}

theorem ReadingOk.later {c' : Chan} (bs : List Byte) (h : c.ReadingOk) (hreading : c'.reading = c.reading)
    (hgots : c'.gots = c.gots) (hsent : c'.sent = c.sent ++ bs)
    (hsize : c'.ring.SizeOfBuffer = c.ring.SizeOfBuffer)
    (hwr : bs = [] → c'.ring.WrOff = c'.ring.SizeOfBuffer → c.ring.WrOff = c.ring.SizeOfBuffer) :
    c'.ReadingOk := by
  have hgot : c'.got = c.got := by rw [Chan.got, hgots, Chan.got]
  have hat : ∀ asked there l parts, c.ReadingAt asked there l parts → c'.ReadingAt asked there l parts := by
    rintro asked there l parts ⟨hok, hask, hparts⟩
    rw [ReadingAt, hgot, hsent]
    exact ⟨hok.later hsize hwr, hask, hparts⟩
  unfold ReadingOk at h ⊢
  rw [hreading]
  cases hr : c.reading with
  | idle => trivial
  | loaded asked there l =>
    rw [hr] at h
    exact hat asked there l _ h
  | first asked there l =>
    rw [hr] at h
    exact hat asked there l _ h
  | rest asked there l =>
    rw [hr] at h
    exact hat asked there l _ h
  | fault =>
    rw [hr] at h
    exact h

/-- nothing but where the writer is changes -/
theorem Good.at_ {w : Writing} (h : c.Good) (hw : { c with writing := w }.WritingOk)
    (hpart : { c with writing := w }.part = c.part) : { c with writing := w }.Good where
  inv := h.inv
  got := h.got
  writing := hw
  reading := h.reading
  sent := by
    rw [hpart]
    exact h.sent
  puts := h.puts
  gots := h.gots

/-- a call returns that has stored what was accepted -/
theorem Good.putBack (h : c.Good) (hready : c.ring.WrOff < c.ring.SizeOfBuffer) {data : List Byte}
    {found returned : Nat} (hpart : c.part = data.take returned)
    (hret : returned = accepted c.ring.mode found data.length) : (c.putBack data found returned).Good where
  inv := h.inv
  got := h.got
  writing := hready
  reading := h.reading
  sent := by
    have hput : (c.putBack data found returned).put = c.put ++ data.take returned := by
      simp only [put, Chan.putBack, List.map_append, List.flatten_append, List.map_cons, List.map_nil,
        List.flatten_cons, List.flatten_nil, List.append_nil]
    rw [hput, ← hpart]
    exact h.sent.trans (List.append_nil _).symm
  puts p hp := by
    obtain hp | hp := List.mem_append.mp hp
    · exact h.puts p hp
    · rw [List.mem_singleton.mp hp]
      exact hret
  gots := h.gots

/-- What the code computes from the two offsets when a call sets out is the room there is. -/
theorem Good.room_eq (h : c.Good) {data : List Byte} (hw : c.writing = .entered data) :
    c.ring.room c.ring.RdOff = c.free := by
  have hwo := h.writing
  unfold WritingOk at hwo
  rw [hw] at hwo
  exact h.inv.room_eq hwo.1 (Nat.le_refl _) h.inv.fits h.inv.rd

theorem Good.enter (h : c.Good) {data : List Byte} (hw : c.writing = .entered data) : (c.enter data).Good := by
  have hwo := h.writing
  unfold WritingOk at hwo
  rw [hw] at hwo
  obtain ⟨hready, hsmall⟩ := hwo
  have hpart : c.part = [] := by
    unfold part
    rw [hw]
  have hnum : (if c.ring.mode ≠ SEGGER_RTT_MODE_BLOCK_IF_FIFO_FULL then c.ring.fitting c.ring.RdOff data.length
      else data.length) = accepted c.ring.mode c.free data.length := by
    split
    · next hmode => exact h.inv.fitting_eq hready hsmall hmode
    · next hmode => rw [accepted, if_pos (by simpa using hmode)]
  unfold Chan.enter
  simp only [hnum]
  split
  · next hz => exact h.putBack hready (by rw [hpart, List.take_zero]) hz.symm
  · exact h.at_ ⟨hready, hsmall, Nat.zero_add _⟩ (by rw [hpart]; rfl)

theorem Good.load (h : c.Good) {k : Call} (hw : c.writing = .top k) :
    { c with writing := .loaded k (c.ring.turn c.ring.RdOff k.NumBytes) }.Good := by
  have hwo := h.writing
  unfold WritingOk at hwo
  rw [hw] at hwo
  obtain ⟨hready, hk⟩ := hwo
  have hle := accepted_le c.ring.mode k.found k.data.length
  have htotal := hk.total
  have hsmall := hk.small
  have hturn := h.inv.turn_eq hready k.NumBytes (Nat.le_refl _) h.inv.fits h.inv.rd (by omega)
  have hfits := h.inv.fits_min hready (Nat.le_refl _) h.inv.fits k.NumBytes
  refine h.at_ ⟨hready, hk, _, hturn, Nat.min_le_right _ _, hfits⟩ ?_
  unfold part
  rw [hw]

theorem Good.copy (h : c.Good) {k : Call} {n : Int} (hw : c.writing = .loaded k n) : (c.copy k n).Good := by
  have hwo := h.writing
  unfold WritingOk at hwo
  rw [hw] at hwo
  obtain ⟨hready, hk, m, rfl, hm, hfits⟩ := hwo
  have hle := accepted_le c.ring.mode k.found k.data.length
  have htotal := hk.total
  have hlen : k.pBuffer.length = k.data.length - k.NumBytesWritten := List.length_drop
  have hchunk : (k.pBuffer.take m).length = m := List.length_take_of_le (by omega)
  have hfrom : memcpyFrom k.pBuffer 0 m = .ok (k.pBuffer.take m) := memcpyFrom_eq (by omega)
  obtain ⟨hto, hheld, hinv⟩ := h.inv.copied (k.pBuffer.take m) (by rw [hchunk]; exact hfits)
  unfold Chan.copy
  simp only [hfrom, hto]
  refine ⟨hinv, h.got, ⟨hready, hk, ?_, ?_, ?_, hheld⟩, ?_, ?_, h.puts, h.gots⟩
  · rw [hchunk]
  · rw [hchunk]
    exact hm
  · rw [hchunk]
    exact hfits
  · exact h.reading.later [] rfl rfl (List.append_nil _).symm rfl (fun _ he => he)
  · have hsent := h.sent
    unfold part at hsent
    rw [hw] at hsent
    exact hsent

theorem Good.store (h : c.Good) {k : Call} {chunk : List Byte} (hw : c.writing = .copied k chunk) :
    (c.store k chunk).Good := by
  have hwo := h.writing
  unfold WritingOk at hwo
  rw [hw] at hwo
  obtain ⟨hready, hk, hchunk, hnum, hfits, hheld⟩ := hwo
  have hgotlen := h.inv.le
  refine ⟨h.inv.published hready hfits hheld, ?_, ⟨hk.small, ?_⟩, ?_, ?_, h.puts, h.gots⟩
  · show c.got = (c.sent ++ chunk).take c.got.length
    rw [List.take_append_of_le_length hgotlen]
    exact h.got
  · have htotal := hk.total
    show k.NumBytesWritten + chunk.length + (k.NumBytes - chunk.length) = accepted c.ring.mode k.found k.data.length
    omega
  · refine h.reading.later chunk rfl rfl rfl rfl (fun hz he => ?_)
    have he' : c.ring.WrOff + chunk.length = c.ring.SizeOfBuffer := he
    rw [hz, List.length_nil] at he'
    exact he'
  · have hsent := h.sent
    unfold part at hsent
    rw [hw] at hsent
    show c.sent ++ chunk = c.put ++ k.data.take (k.NumBytesWritten + chunk.length)
    rw [hsent, List.append_assoc, List.take_add]
    congr 2

theorem Good.endTurn (h : c.Good) {k : Call} (hw : c.writing = .stored k) : (c.endTurn k).Good := by
  have hk := h.writing
  unfold WritingOk at hk
  rw [hw] at hk
  obtain ⟨hinv, hready⟩ := h.inv.wrapped
  have hcfg := c.ring.sameConfig_wrap
  rw [← hcfg.2.1] at hready
  have hmode := hcfg.mode_eq
  have hpart : c.part = k.data.take k.NumBytesWritten := by
    unfold part
    rw [hw]
  have hgood : { c with ring := c.ring.wrap }.Good := by
    refine ⟨hinv, h.got, ?_, ?_, h.sent, fun p hp => ?_, h.gots⟩
    · unfold WritingOk
      rw [hw]
      rw [← hmode] at hk
      exact hk
    · exact h.reading.later [] rfl rfl (List.append_nil _).symm hcfg.2.1
        (fun _ he => absurd he (by have hr := hready; exact Nat.ne_of_lt hr))
    · rw [h.puts p hp, ← hmode]
  unfold Chan.endTurn
  dsimp only
  split
  · next hz =>
    refine hgood.putBack hready hpart ?_
    have htotal := hk.total
    rw [hz, Nat.add_zero] at htotal
    rw [htotal, hmode]
  · refine hgood.at_ ⟨hready, ?_⟩ hpart.symm
    rw [hmode]
    exact hk

end Chan

/-! ## the reader's steps -/

namespace Chan

variable {c : Chan}

theorem Good.readPart (h : c.Good) {go : Reading → Reads} {res : Except Stop Reading}
    (hres : ∃ l, res = .ok l ∧ { c with reading := go l }.ReadingOk) : (c.readPart go res).Good := by
  obtain ⟨l, rfl, hl⟩ := hres
  exact ⟨h.inv, h.got, h.writing, hl, h.sent, h.puts, h.gots⟩

/-- what is read has been sent, so the writer may count on it being free -/
theorem WritingOk.later {c' : Chan} (h : c.WritingOk) (hwriting : c'.writing = c.writing)
    (hsent : c'.sent = c.sent) (hbuf : c'.ring.pBuffer = c.ring.pBuffer)
    (hcfg : c.ring.SameConfig c'.ring) (hwr : c'.ring.WrOff = c.ring.WrOff)
    (hgot : c.got.length ≤ c'.got.length) : c'.WritingOk := by
  have hmode := hcfg.mode_eq
  have hfits : ∀ n, c.ring.Fits c.sent c.got.length n → c'.ring.Fits c'.sent c'.got.length n := by
    rintro n ⟨h1, h2⟩
    unfold RING_BUFFER.Fits
    rw [hwr, hcfg.2.1, hsent]
    exact ⟨h1, by omega⟩
  unfold WritingOk at h ⊢
  rw [hwriting, hwr, hcfg.2.1, hmode, hbuf, hsent]
  rw [hsent] at hfits
  cases hw : c.writing with
  | loaded k n =>
    rw [hw] at h
    obtain ⟨hready, hk, m, hn, hm, hf⟩ := h
    exact ⟨hready, hk, m, hn, hm, hfits m hf⟩
  | copied k chunk =>
    rw [hw] at h
    obtain ⟨hready, hk, hchunk, hnum, hf, hheld⟩ := h
    exact ⟨hready, hk, hchunk, hnum, hfits _ hf, hheld.mono hgot⟩
  | _ =>
    rw [hw] at h
    exact h

theorem Good.finish (h : c.Good) {asked there : Nat} {l : Reading} (hr : c.reading = .rest asked there l) :
    { c with ring := l.finish c.ring, reading := .idle, gots := c.gots ++ [Got.mk asked there l.out] }.Good := by
  have hro := h.reading
  unfold ReadingOk at hro
  rw [hr] at hro
  obtain ⟨hl, hask, hend⟩ := hro
  have hle := hl.le
  have hcfg := Reading.sameConfig_finish c.ring l
  have hbuf : (l.finish c.ring).pBuffer = c.ring.pBuffer := by
    unfold Reading.finish
    split <;> rfl
  have hwr : (l.finish c.ring).WrOff = c.ring.WrOff := by
    unfold Reading.finish
    split <;> rfl
  have hmode := hcfg.mode_eq
  obtain ⟨c', hc'⟩ : ∃ c', c' = { c with ring := l.finish c.ring, reading := .idle, gots := c.gots ++ [Got.mk asked there l.out] } :=
    ⟨_, rfl⟩
  have hgot : c'.got = c.got ++ l.out := by
    rw [hc']
    simp only [Chan.got, List.map_append, List.flatten_append, List.map_cons, List.map_nil,
      List.flatten_cons, List.flatten_nil, List.append_nil]
  have hgotlen : c'.got.length = c.got.length + l.out.length := by rw [hgot, List.length_append]
  have hsent : c'.sent = c.sent := by rw [hc']
  rw [← hc']
  refine ⟨?_, ?_, ?_, ?_, ?_, fun p hp => ?_, fun g hg => ?_⟩
  · rw [hgotlen, hsent, hc']
    exact hl.finish h.inv
  · rw [hgotlen, hsent, hgot, List.take_add, ← h.got, ← hl.out]
  · rw [hc'] at hgotlen ⊢
    exact h.writing.later rfl rfl hbuf hcfg hwr (by omega)
  · rw [hc']
    trivial
  · rw [hc']
    exact h.sent
  · rw [hc'] at hp ⊢
    rw [hmode]
    exact h.puts p hp
  · rw [hc'] at hg
    obtain hg | hg := List.mem_append.mp hg
    · exact h.gots g hg
    · rw [List.mem_singleton.mp hg]
      show l.out.length = min asked there
      omega

theorem Good.read {c' : Chan} (h : c.Good) (hs : c.read = some c') : c'.Good := by
  have hro := h.reading
  unfold ReadingOk at hro
  unfold Chan.read at hs
  cases hr : c.reading with
  | idle => rw [hr] at hs; cases hs
  | loaded asked there l =>
    rw [hr] at hs hro
    cases hs
    obtain ⟨hl, hask, -⟩ := hro
    obtain ⟨l', hok, hl', hsum, hparts⟩ := hl.first h.inv
    exact h.readPart ⟨l', hok, hl', hsum.trans hask, hparts⟩
  | first asked there l =>
    rw [hr] at hs hro
    cases hs
    obtain ⟨hl, hask, hle⟩ := hro
    obtain ⟨l', hok, hl', hsum, hparts⟩ := hl.rest h.inv hle
    exact h.readPart ⟨l', hok, hl', hsum.trans hask, by omega⟩
  | rest asked there l =>
    rw [hr] at hs
    cases hs
    exact h.finish hr
  | fault => rw [hr] at hs; cases hs

theorem Good.write {c' : Chan} (h : c.Good) (hs : c.write = some c') : c'.Good := by
  unfold Chan.write at hs
  cases hw : c.writing with
  | idle => rw [hw] at hs; cases hs
  | entered data => rw [hw] at hs; cases hs; exact h.enter hw
  | top k => rw [hw] at hs; cases hs; exact h.load hw
  | loaded k n => rw [hw] at hs; cases hs; exact h.copy hw
  | copied k chunk => rw [hw] at hs; cases hs; exact h.store hw
  | stored k => rw [hw] at hs; cases hs; exact h.endTurn hw
  | fault => rw [hw] at hs; cases hs

/-- Every step of either side keeps the invariant. -/
theorem Good.step {c' : Chan} {a : Act} (h : c.Good) (ha : a.Small) (hs : Rtt.step c a = some c') : c'.Good := by
  cases a with
  | write data =>
    simp only [Rtt.step] at hs
    split at hs
    · next hidle =>
      cases hs
      have hwo := h.writing
      unfold WritingOk at hwo
      rw [hidle] at hwo
      refine h.at_ ⟨hwo, ha⟩ ?_
      unfold part
      rw [hidle]
    · cases hs
  | read ask =>
    simp only [Rtt.step] at hs
    split at hs
    · cases hs
      refine ⟨h.inv, h.got, h.writing, ⟨?_, rfl, rfl⟩, h.sent, h.puts, h.gots⟩
      have hle := h.inv.le
      have hseen : c.got.length + (c.sent.length - c.got.length) = c.sent.length := by omega
      show (Reading.start c.ring ask).Ok c.ring c.sent c.got.length (c.got.length + (c.sent.length - c.got.length))
      rw [hseen]
      exact Reading.Ok.start h.inv ha
    · cases hs
  | writer => exact h.write hs
  | reader => exact h.read hs

end Chan

/-! ## runs -/

/-- A buffer as it is set up: nothing is in it. -/
structure RING_BUFFER.Fresh (r : RING_BUFFER) : Prop where
  size : r.pBuffer.length = r.SizeOfBuffer
  pos : 0 < r.SizeOfBuffer
  small : r.SizeOfBuffer < 2 ^ 31
  wr : r.WrOff = 0
  rd : r.RdOff = 0

theorem RING_BUFFER.Fresh.inv {r : RING_BUFFER} (h : r.Fresh) : r.Inv [] 0 := by
  refine ⟨h.size, h.small, Nat.le_refl 0, h.pos, ?_, ?_, fun i _ hi => ?_, fun he => ?_⟩
  · rw [h.wr]
    exact At.zero _
  · rw [h.rd]
    exact At.zero _
  · exact absurd hi (Nat.not_lt_zero i)
  · have hpos := h.pos
    have hwr := h.wr
    omega

def Chan.init (r : RING_BUFFER) : Chan := { ring := r }

theorem Chan.good_init {r : RING_BUFFER} (h : r.Fresh) : (Chan.init r).Good where
  inv := h.inv
  got := rfl
  writing := by
    show r.WrOff < r.SizeOfBuffer
    rw [h.wr]
    exact h.pos
  reading := trivial
  sent := rfl
  puts p hp := by cases hp
  gots g hg := by cases hg

/-- In every state of every run of the two sides the invariant holds. -/
theorem channel_good {r : RING_BUFFER} {as : List Act} {c : Chan} (h : r.Fresh) (ha : ∀ a ∈ as, a.Small)
    (hr : exec step (Chan.init r) as = some c) : c.Good :=
  invariant_of_mem (G := Act.Small) (fun _ _ _ hg ha hs => hg.step ha hs) ha (Chan.good_init h) hr

/-- The reads have returned what was sent, in order and up to some byte; what was sent are the accepted
bytes of one call after the other; what is not read yet has not been overwritten, and neither side has
left the buffer. -/
theorem channel_fifo {r : RING_BUFFER} {as : List Act} {c : Chan} (h : r.Fresh) (ha : ∀ a ∈ as, a.Small)
    (hr : exec step (Chan.init r) as = some c) :
    c.got <+: c.sent ∧ c.sent = c.put ++ c.part ∧
      c.sent.length < c.got.length + c.ring.SizeOfBuffer ∧
      Holds c.ring.pBuffer c.sent c.got.length ∧
      c.writing ≠ .fault ∧ c.reading ≠ .fault := by
  have hg := channel_good h ha hr
  have hfits := hg.inv.fits
  refine ⟨?_, hg.sent, by omega, hg.inv.held, fun he => ?_, fun he => ?_⟩
  · rw [hg.got]
    exact List.take_prefix _ _
  · have hw := hg.writing
    unfold Chan.WritingOk at hw
    rw [he] at hw
    exact hw
  · have hro := hg.reading
    unfold Chan.ReadingOk at hro
    rw [he] at hro
    exact hro

instance (a : Act) : Decidable a.Small :=
  match a with
  | .write pBuffer => inferInstanceAs (Decidable (pBuffer.length < 2 ^ 31))
  | .read BufferSize => inferInstanceAs (Decidable (BufferSize < 2 ^ 31))
  | .writer => .isTrue trivial
  | .reader => .isTrue trivial

/-- a buffer of four bytes -/
def fourBytes (Flags : Nat) : RING_BUFFER := ⟨"Terminal", [0, 0, 0, 0], 4, 0, 0, Flags⟩

theorem fourBytes_fresh (Flags : Nat) : (fourBytes Flags).Fresh :=
  ⟨rfl, Nat.zero_lt_succ 3, by show 4 < 2 ^ 31; decide, rfl, rfl⟩

/-- The second call finds room for three of its five bytes and stores them round the end; the second read
begins while `WrOff` is still to be wrapped. -/
def wrappedRun : List Act :=
  [.write [1, 2], .writer, .writer, .writer, .writer, .writer, .read 8, .reader, .reader, .reader,
    .write [3, 4, 5, 6, 7], .writer, .writer, .writer, .writer, .read 8, .reader, .writer, .writer,
    .reader, .reader, .writer, .writer, .writer]

theorem channel_fifo_wrapped : ∃ c, exec step (Chan.init (fourBytes 1)) wrappedRun = some c ∧
    c.got = [1, 2, 3, 4] ∧ c.sent = [1, 2, 3, 4, 5] ∧ c.got <+: c.sent :=
  ⟨_, rfl, rfl, rfl, (@channel_fifo _ wrappedRun _ (fourBytes_fresh 1) (by decide) rfl).1⟩

/-- no step touches the configuration -/
theorem sameConfig_step {c c' : Chan} {a : Act} (hs : step c a = some c') : c.ring.SameConfig c'.ring := by
  cases a with
  | write data =>
    simp only [step] at hs
    split at hs <;> cases hs
    exact ⟨rfl, rfl, rfl⟩
  | read ask =>
    simp only [step] at hs
    split at hs <;> cases hs
    exact ⟨rfl, rfl, rfl⟩
  | writer =>
    unfold step Chan.write at hs
    cases hw : c.writing <;> rw [hw] at hs <;> cases hs
    · unfold Chan.enter
      dsimp only
      split <;> split <;> exact ⟨rfl, rfl, rfl⟩
    · exact ⟨rfl, rfl, rfl⟩
    · unfold Chan.copy
      split
      · exact ⟨rfl, rfl, rfl⟩
      · split <;> exact ⟨rfl, rfl, rfl⟩
    · exact ⟨rfl, rfl, rfl⟩
    · unfold Chan.endTurn
      dsimp only
      split <;> exact c.ring.sameConfig_wrap
  | reader =>
    unfold step Chan.read at hs
    cases hro : c.reading <;> rw [hro] at hs <;> cases hs
    · unfold Chan.readPart
      split <;> exact ⟨rfl, rfl, rfl⟩
    · unfold Chan.readPart
      split <;> exact ⟨rfl, rfl, rfl⟩
    · exact Reading.sameConfig_finish c.ring _

end Rtt
end Pharoah
