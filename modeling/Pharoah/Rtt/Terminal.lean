import Pharoah.Rtt.Calls

/-!
# Virtual terminals

`SEGGER_RTT_SetTerminal` and `SEGGER_RTT_TerminalOut` send escape sequences over up-buffer 0, and the host
shows each byte on the terminal that it was last switched to.

* `Screens`, `feed`     what the host shows: a byte 0xFF and an id switch the terminal;
* `idOf`                the terminal of an id; `terminalChar` is read back by it;
* `Print`               a call that prints; `sends` are its bytes and `shown` is what it means;
* `prints_sends`        a run of such calls sends their bytes, if there is room for them;
* `Returns n m`         the program returns after `n` calls of `SEGGER_RTT_Write` at most;
* `terminalOut_restores_iff`  **a call of `SEGGER_RTT_TerminalOut` switches back to the active terminal if
                        and only if both ids are below 10 or both are not**;
* `terminals_agree`     in a run of calls that are all so, every text is shown on its terminal.
-/

namespace Pharoah
namespace Rtt

open Lts Prog

/-! ## the host -/

/-- The terminal that the host is at, whether an escape has begun, and the text of each terminal. -/
structure Screens where
  current : Byte
  escape : Bool
  text : Byte → List Byte

/-- before the first byte -/
def Screens.blank : Screens := ⟨0, false, fun _ => []⟩

/-- the terminal of an id -/
def idOf (c : Byte) : Option Byte :=
  if 0x30 ≤ c ∧ c ≤ 0x39 then some (c - 0x30)
  else if 0x41 ≤ c ∧ c ≤ 0x46 then some (c - 0x41 + 10)
  else none

namespace Screens

/-- more text on the terminal -/
def put (s : Screens) (id : Byte) (bs : List Byte) : Screens :=
  { s with text := Function.update s.text id (s.text id ++ bs) }

/-- one byte; nothing is known of an id that is none -/
def see (s : Screens) (b : Byte) : Option Screens :=
  if s.escape then (idOf b).map fun id => { s with current := id, escape := false }
  else if b = 0xFF then some { s with escape := true }
  else some (s.put s.current [b])

def feed (s : Screens) (bs : List Byte) : Option Screens := bs.foldlM see s

theorem feed_append (s : Screens) (bs bs' : List Byte) :
    s.feed (bs ++ bs') = (s.feed bs).bind fun s' => s'.feed bs' := List.foldlM_append

theorem put_put (s : Screens) (id : Byte) (bs bs' : List Byte) :
    (s.put id bs).put id bs' = s.put id (bs ++ bs') := by
  unfold put
  dsimp only
  rw [Function.update_self, Function.update_idem, List.append_assoc]

theorem put_nil (s : Screens) (id : Byte) : s.put id [] = s := by
  unfold put
  rw [List.append_nil, Function.update_eq_self]

/-- text is shown where the host is -/
theorem feed_text {s : Screens} (hs : s.escape = false) {t : List Byte} (ht : 0xFF ∉ t) :
    s.feed t = some (s.put s.current t) := by
  induction t generalizing s with
  | nil => rw [put_nil]; rfl
  | cons b t ih =>
    obtain ⟨hb, ht'⟩ := not_or.mp (fun h => ht (List.mem_cons.mpr h))
    have hsee : s.see b = some (s.put s.current [b]) := by
      unfold see
      rw [hs, if_neg (by decide), if_neg (Ne.symm hb)]
    have hrest := ih (s := s.put s.current [b]) hs ht'
    have hcur : (s.put s.current [b]).current = s.current := rfl
    rw [hcur, put_put] at hrest
    unfold feed at hrest ⊢
    rw [List.foldlM_cons, hsee]
    exact hrest

/-- an escape sequence switches the terminal -/
theorem feed_escape {s : Screens} (hs : s.escape = false) (c : Byte) :
    s.feed [0xFF, c] = (idOf c).map fun id => { s with current := id } := by
  obtain ⟨current, escape, text⟩ := s
  cases hs
  unfold feed
  rw [List.foldlM_cons]
  have hsee : Screens.see ⟨current, false, text⟩ 0xFF = some ⟨current, true, text⟩ := rfl
  rw [hsee]
  show (Screens.see ⟨current, true, text⟩ c).bind _ = _
  unfold see
  rw [if_pos rfl]
  cases idOf c <;> rfl

end Screens

/-! ## ids -/

theorem exists_terminalChar {id : Byte} (h : id < 16) : ∃ c, terminalChar id = some c :=
  Option.ne_none_iff_exists'.mp fun hn => terminalChar_none.mp hn h

/-- there are sixteen ids -/
theorem exists_of_lt_16 {id : Byte} (h : id < 16) : ∃ n, n < 16 ∧ id = UInt8.ofNat n :=
  ⟨id.toNat, h, UInt8.ofNat_toNat.symm⟩

/-- every id is read back -/
theorem idOf_terminalChar {id c : Byte} (h : terminalChar id = some c) : idOf c = some id := by
  have hall : ∀ n < 16, (terminalChar (UInt8.ofNat n)).bind idOf = some (UInt8.ofNat n) := by decide
  have hid : id < 16 := by
    by_contra hge
    rw [terminalChar_none.mpr hge] at h
    cases h
  obtain ⟨n, hn, rfl⟩ := exists_of_lt_16 hid
  have hn' := hall n hn
  rw [h] at hn'
  exact hn'

/-- the id that is sent at the end, read back -/
theorem idOf_returnChar {id active : Byte} (hid : id < 16) (ha : active < 16) :
    idOf (returnChar id active) = some active ↔ (id < 10 ↔ active < 10) := by
  have hall : ∀ n < 16, ∀ m < 16, (idOf (returnChar (UInt8.ofNat n) (UInt8.ofNat m)) = some (UInt8.ofNat m) ↔
      (UInt8.ofNat n < 10 ↔ UInt8.ofNat m < 10)) := by decide
  obtain ⟨n, hn, rfl⟩ := exists_of_lt_16 hid
  obtain ⟨m, hm, rfl⟩ := exists_of_lt_16 ha
  exact hall n hn m hm

/-! ## calls that print -/

/-- Calls that print on channel 0; a text is a string without its final zero. -/
inductive Print
  | write (text : List Byte)
  | set (TerminalId : Byte)
  | out (TerminalId : Byte) (text : List Byte)
deriving DecidableEq

namespace Print

def run : Print → Code Unit
  | .write text => SEGGER_RTT_WriteString 0 (some (text ++ [0])) >>= fun _ => pure ()
  | .set TerminalId => SEGGER_RTT_SetTerminal TerminalId
  | .out TerminalId text => SEGGER_RTT_TerminalOut TerminalId (some (text ++ [0])) >>= fun _ => pure ()

/-- The text has no zero, which would end it, and no 0xFF, which would begin an escape. -/
def Clean : Print → Prop
  | .write text | .out _ text => 0 ∉ text ∧ 0xFF ∉ text ∧ text.length < 2 ^ 30
  | .set _ => True

instance : (p : Print) → Decidable p.Clean
  | .write text | .out _ text => inferInstanceAs (Decidable (0 ∉ text ∧ 0xFF ∉ text ∧ text.length < 2 ^ 30))
  | .set _ => .isTrue trivial

/-- the active terminal after the call -/
def after (active : Byte) : Print → Byte
  | .set TerminalId => if TerminalId < 16 then TerminalId else active
  | _ => active

/-- the bytes of the call -/
def sends (active : Byte) : Print → List Byte
  | .write text => text
  | .set TerminalId => (terminalChar TerminalId).elim [] fun c => [0xFF, c]
  | .out TerminalId text => (terminalChar TerminalId).elim [] fun c =>
      [0xFF, c] ++ text ++ [0xFF, returnChar TerminalId active]

/-- what the call is meant to show -/
def shown (s : Screens) : Print → Screens
  | .write text => s.put s.current text
  | .set TerminalId => if TerminalId < 16 then { s with current := TerminalId } else s
  | .out TerminalId text => if TerminalId < 16 then s.put TerminalId text else s

/-- the two ids of the call are sent in the same way -/
def Alike (active : Byte) : Print → Prop
  | .out TerminalId _ => TerminalId < 16 → (TerminalId < 10 ↔ active < 10)
  | _ => True

end Print

/-- the text, before the last escape -/
theorem text_shown {s : Screens} (hs : s.escape = false) {id c : Byte} {t : List Byte}
    (hc : terminalChar id = some c) (ht : 0xFF ∉ t) :
    s.feed ([0xFF, c] ++ t) = some { s.put id t with current := id } := by
  rw [Screens.feed_append, Screens.feed_escape hs, idOf_terminalChar hc]
  exact @Screens.feed_text { s with current := id } hs _ ht

theorem returnChar_shown {s : Screens} (hs : s.escape = false) {id active c : Byte} {t : List Byte}
    (hc : terminalChar id = some c) (ht : 0xFF ∉ t) :
    s.feed ([0xFF, c] ++ t ++ [0xFF, returnChar id active]) =
      (idOf (returnChar id active)).map fun back => { s.put id t with current := back } := by
  rw [Screens.feed_append, text_shown hs hc ht]
  exact @Screens.feed_escape { s.put id t with current := id } hs _

/-- The host shows what the call is meant to show, if the ids are alike. -/
theorem Print.feed_sends {s : Screens} (hs : s.escape = false) {p : Print} (hclean : p.Clean)
    (hactive : s.current < 16) (halike : p.Alike s.current) :
    s.feed (p.sends s.current) = some (p.shown s) ∧ (p.shown s).escape = false ∧
      (p.shown s).current = p.after s.current ∧ (p.shown s).current < 16 := by
  cases p with
  | write text => exact ⟨Screens.feed_text hs hclean.2.1, hs, rfl, hactive⟩
  | set id =>
    simp only [Print.sends, Print.shown, Print.after]
    by_cases hid : id < 16
    · obtain ⟨c, hc⟩ := exists_terminalChar hid
      rw [hc, if_pos hid, if_pos hid]
      refine ⟨?_, hs, rfl, hid⟩
      show s.feed [0xFF, c] = _
      rw [Screens.feed_escape hs, idOf_terminalChar hc]
      rfl
    · rw [terminalChar_none.mpr hid, if_neg hid, if_neg hid]
      exact ⟨rfl, hs, rfl, hactive⟩
  | out id text =>
    simp only [Print.sends, Print.shown, Print.after]
    by_cases hid : id < 16
    · obtain ⟨c, hc⟩ := exists_terminalChar hid
      rw [hc, if_pos hid]
      refine ⟨?_, hs, rfl, hactive⟩
      show s.feed ([0xFF, c] ++ text ++ [0xFF, returnChar id s.current]) = _
      rw [returnChar_shown hs hc hclean.2.1, (idOf_returnChar hid hactive).mpr (halike hid)]
      rfl
    · rw [terminalChar_none.mpr hid, if_neg hid]
      exact ⟨rfl, hs, rfl, hactive⟩

/-! ## what a call sends -/

theorem strlen_text {t : List Byte} (ht : 0 ∉ t) : _strlen (t ++ [0]) = some t.length := by
  induction t with
  | nil => rfl
  | cons b t ih =>
    obtain ⟨hb, ht'⟩ := not_or.mp (fun h => ht (List.mem_cons.mpr h))
    rw [List.cons_append, _strlen, if_neg (Ne.symm hb), ih ht']
    rfl

section
variable {s s' : Target} {t : List Byte} {n : Nat}

theorem writeString_whole (h : s.Ok) (ht : 0 ∉ t) (hfits : t.length ≤ s.free 0)
    (hr : SEGGER_RTT_WriteString 0 (some (t ++ [0])) s = .ok n s') : n = t.length ∧ s.Sends 0 t s' := by
  unfold SEGGER_RTT_WriteString at hr
  simp only [strlen_text ht, List.take_left] at hr
  exact write_whole h (h.up_lt (by decide)) hfits hr

/-- The text between the two escape sequences; the number of its bytes is returned. -/
theorem terminalOut_sends (h : s.Ok) (ht : 0 ∉ t) {id c : Byte} (hc : terminalChar id = some c)
    (hfits : t.length + 4 ≤ s.free 0) {r : Int}
    (hr : SEGGER_RTT_TerminalOut id (some (t ++ [0])) s = .ok r s') :
    r = t.length ∧ s.Sends 0 ([0xFF, c] ++ t ++ [0xFF, returnChar id s._ActiveTerminal]) s' := by
  unfold SEGGER_RTT_TerminalOut at hr
  simp only [hc] at hr
  have hlt : 0 < s.cb.aUp.length := h.up_lt (by decide)
  obtain ⟨n1, s1, h1, hr⟩ := bind_eq_ok.mp hr
  obtain ⟨-, hs1⟩ := write_whole h hlt (by show 2 ≤ _; omega) h1
  have hfree1 : s.free 0 ≤ s1.free 0 + 2 := hs1.free_le hlt
  obtain ⟨n2, s2, h2, hr⟩ := bind_eq_ok.mp hr
  obtain ⟨hn2, hs2⟩ := writeString_whole hs1.ok ht (by omega) h2
  have hfree2 := hs2.free_le (hs1.ups.symm ▸ hlt)
  rw [get_bind] at hr
  obtain ⟨n3, s3, h3, hr⟩ := bind_eq_ok.mp hr
  have hlt2 : 0 < s2.cb.aUp.length := hs2.ok.up_lt (by decide)
  obtain ⟨-, hs3⟩ := write_whole hs2.ok hlt2 (by show 2 ≤ _; omega) h3
  cases hr
  rw [hs2.terminal, hs1.terminal] at hs3
  exact ⟨congrArg Int.ofNat hn2, (hs1.trans hs2).trans hs3⟩

/-- What a call sends, and the active terminal after it. -/
theorem Print.run_sends (h : s.Ok) {p : Print} (hclean : p.Clean)
    (hfits : (p.sends s._ActiveTerminal).length ≤ s.free 0) (hr : p.run s = .ok () s') :
    Target.Sends { s with _ActiveTerminal := p.after s._ActiveTerminal } 0 (p.sends s._ActiveTerminal) s' := by
  cases p with
  | write text =>
    obtain ⟨n, s1, hrun, hend⟩ := bind_eq_ok.mp hr
    cases hend
    exact (writeString_whole h hclean.1 hfits hrun).2
  | set id =>
    simp only [Print.run, SEGGER_RTT_SetTerminal] at hr
    simp only [Print.sends, Print.after] at hfits ⊢
    by_cases hid : id < 16
    · obtain ⟨c, hc⟩ := exists_terminalChar hid
      rw [hc] at hfits ⊢
      simp only [hc] at hr
      obtain ⟨_, s1, hset, hr⟩ := bind_eq_ok.mp hr
      cases hset
      obtain ⟨n, s2, hrun, hend⟩ := bind_eq_ok.mp hr
      cases hend
      rw [if_pos hid]
      have hok := h.setActive hid
      exact (write_whole hok (hok.up_lt (by decide)) hfits hrun).2
    · have hc := terminalChar_none.mpr hid
      simp only [hc] at hr
      cases hr
      rw [hc, if_neg hid]
      exact Target.Sends.refl h 0
  | out id text =>
    obtain ⟨r, s1, hrun, hend⟩ := bind_eq_ok.mp hr
    cases hend
    simp only [Print.sends, Print.after] at hfits ⊢
    by_cases hid : id < 16
    · obtain ⟨c, hc⟩ := exists_terminalChar hid
      rw [hc] at hfits ⊢
      simp only [Option.elim_some, List.length_append, List.length_cons, List.length_nil] at hfits
      exact (terminalOut_sends h hclean.1 hc (by omega) hrun).2
    · have hc := terminalChar_none.mpr hid
      unfold SEGGER_RTT_TerminalOut at hrun
      simp only [hc] at hrun
      cases hrun
      rw [hc]
      exact Target.Sends.refl h 0

end

/-! ## a call returns -/

/-- Between calls, with moves of the host for `n` more calls of `SEGGER_RTT_Write` that must not block. -/
def Target.Quick (n : Nat) (s : Target) : Prop :=
  s.Ok ∧ s.mode 0 ≠ SEGGER_RTT_MODE_BLOCK_IF_FIFO_FULL ∧ 3 * n ≤ s.host.length

/-- The program returns, after `n` calls of `SEGGER_RTT_Write` at most. -/
def Returns {α : Type} (n : Nat) (m : Code α) : Prop :=
  ∀ (s : Target) (k : Nat), s.Quick (n + k) → ∃ a s', m s = .ok a s' ∧ s'.Quick k

section
variable {α β : Type} {i j : Nat}

theorem Returns.pure (a : α) : Returns 0 (pure a : Code α) := fun s k h => by
  rw [Nat.zero_add] at h
  exact ⟨a, s, rfl, h⟩

theorem Returns.bind {m : Code α} {f : α → Code β} (hm : Returns i m) (hf : ∀ a, Returns j (f a)) :
    Returns (i + j) (m >>= f) := by
  intro s k h
  rw [Nat.add_assoc] at h
  obtain ⟨a, s1, hrun, h1⟩ := hm s (j + k) h
  obtain ⟨b, s2, hrun2, h2⟩ := hf a s1 k h1
  exact ⟨b, s2, by rw [bind_ok hrun, hrun2], h2⟩

theorem Returns.mono {m : Code α} (hm : Returns i m) (h : i ≤ j) : Returns j m := by
  intro s k hq
  obtain ⟨d, rfl⟩ := Nat.exists_eq_add_of_le h
  rw [Nat.add_assoc] at hq
  obtain ⟨a, s', hrun, hok, hmode, hhost⟩ := hm s (d + k) hq
  exact ⟨a, s', hrun, hok, hmode, by omega⟩

theorem returns_write {data : List Byte} (hlen : data.length < 2 ^ 31) : Returns 1 (SEGGER_RTT_Write 0 data) := by
  rintro s k ⟨hok, hmode, hhost⟩
  have hlt : 0 < s.cb.aUp.length := hok.up_lt (by decide)
  obtain ⟨n, s', hrun, hleft⟩ := write_sends_returns hok hlt hlen hmode (by omega)
  obtain hwait | ⟨n', s1, f, hrun', hsends, -, -⟩ := write_sends hok hlt hlen
  · rw [hwait] at hrun
    cases hrun
  · rw [hrun] at hrun'
    cases hrun'
    exact ⟨n, s', hrun, hsends.ok, by rw [hsends.mode_eq hlt]; exact hmode, by omega⟩

theorem returns_writeString {t : List Byte} (ht : 0 ∉ t) (hlen : t.length < 2 ^ 31) :
    Returns 1 (SEGGER_RTT_WriteString 0 (some (t ++ [0]))) := by
  unfold SEGGER_RTT_WriteString
  simp only [strlen_text ht, List.take_left]
  exact returns_write hlen

theorem returns_modify {f : Target → Target} (h : ∀ s k, s.Quick k → (f s).Quick k) :
    Returns 0 (modify f : Code PUnit) := fun s k hq => by
  rw [Nat.zero_add] at hq
  exact ⟨⟨⟩, f s, rfl, h s k hq⟩

theorem returns_escape (a b : Byte) : Returns 1 (SEGGER_RTT_Write 0 [a, b]) :=
  returns_write (by show 2 < 2 ^ 31; decide)

theorem returns_terminalOut (id : Byte) {t : List Byte} (ht : 0 ∉ t) (hlen : t.length < 2 ^ 31) :
    Returns 3 (SEGGER_RTT_TerminalOut id (some (t ++ [0]))) := by
  unfold SEGGER_RTT_TerminalOut
  split
  · exact (Returns.pure _).mono (by omega)
  · refine Returns.bind (i := 1) (j := 2) (returns_escape _ _) fun _ =>
      Returns.bind (i := 1) (j := 1) (returns_writeString ht hlen) fun r => ?_
    intro s k hq
    exact (Returns.bind (returns_escape _ _) fun _ => Returns.pure _) s k hq

theorem returns_print {p : Print} (hclean : p.Clean) : Returns 3 p.run := by
  cases p with
  | write text =>
    obtain ⟨hz, -, hlen⟩ := hclean
    exact (Returns.bind (returns_writeString hz (by omega)) fun _ => Returns.pure _).mono (by omega)
  | set id =>
    show Returns 3 (SEGGER_RTT_SetTerminal id)
    unfold SEGGER_RTT_SetTerminal
    split
    · exact (Returns.pure _).mono (by omega)
    · next c hc =>
      have hid : id < 16 := by
        by_contra hge
        rw [terminalChar_none.mpr hge] at hc
        cases hc
      have hset := returns_modify (f := fun s => { s with _ActiveTerminal := id })
        (fun s k hq => ⟨hq.1.setActive hid, hq.2⟩)
      exact (Returns.bind hset fun _ => Returns.bind (returns_escape _ _) fun _ => Returns.pure _).mono (by omega)
  | out id text =>
    obtain ⟨hz, -, hlen⟩ := hclean
    exact (Returns.bind (returns_terminalOut id hz (by omega)) fun _ => Returns.pure _).mono (Nat.le_refl 3)

end

/-! ## runs of calls -/

def printAll : List Print → Code Unit
  | [] => pure ()
  | p :: ps => p.run >>= fun _ => printAll ps

/-- the bytes of the calls, the active terminal changing on the way -/
def sendsAll (active : Byte) : List Print → List Byte
  | [] => []
  | p :: ps => p.sends active ++ sendsAll (p.after active) ps

/-- what the calls are meant to show -/
def shownAll (v : Screens) (ps : List Print) : Screens := ps.foldl Print.shown v

def AllAlike (active : Byte) : List Print → Prop
  | [] => True
  | p :: ps => p.Alike active ∧ AllAlike (p.after active) ps

theorem returns_prints {ps : List Print} (hclean : ∀ p ∈ ps, p.Clean) : Returns (3 * ps.length) (printAll ps) := by
  induction ps with
  | nil => exact Returns.pure ()
  | cons p ps ih =>
    obtain ⟨hp, hps⟩ := List.forall_mem_cons.mp hclean
    have hlen : 3 * (p :: ps).length = 3 + 3 * ps.length := by
      rw [List.length_cons]
      omega
    rw [hlen]
    exact Returns.bind (returns_print hp) fun _ => ih hps

/-- A run of calls for which there is room sends what each of them sends. -/
theorem prints_sends {ps : List Print} {s s' : Target} (h : s.Ok) (hclean : ∀ p ∈ ps, p.Clean)
    (hfits : (sendsAll s._ActiveTerminal ps).length ≤ s.free 0) (hr : printAll ps s = .ok () s') :
    s'.sent 0 = s.sent 0 ++ sendsAll s._ActiveTerminal ps := by
  induction ps generalizing s with
  | nil =>
    cases hr
    exact (List.append_nil _).symm
  | cons p ps ih =>
    obtain ⟨hp, hps⟩ := List.forall_mem_cons.mp hclean
    obtain ⟨_, s1, hrun, hr⟩ := bind_eq_ok.mp hr
    rw [sendsAll, List.length_append] at hfits
    have hsends := Print.run_sends h hp (by omega) hrun
    have hactive : s1._ActiveTerminal = p.after s._ActiveTerminal := hsends.terminal
    have hfree : s.free 0 ≤ s1.free 0 + (p.sends s._ActiveTerminal).length := hsends.free_le (h.up_lt (by decide))
    have hsent : s1.sent 0 = s.sent 0 ++ p.sends s._ActiveTerminal := by
      rw [hsends.sent, extend_self]
    rw [ih hsends.ok hps (by rw [hactive]; omega) hr, hsent, hactive, sendsAll, List.append_assoc]

/-- The host shows what the calls are meant to show, if the ids of each are alike. -/
theorem feed_sendsAll {ps : List Print} {v : Screens} (hv : v.escape = false) (hclean : ∀ p ∈ ps, p.Clean)
    (hcur : v.current < 16) (halike : AllAlike v.current ps) :
    v.feed (sendsAll v.current ps) = some (shownAll v ps) := by
  induction ps generalizing v with
  | nil => rfl
  | cons p ps ih =>
    obtain ⟨hp, hps⟩ := List.forall_mem_cons.mp hclean
    obtain ⟨hfirst, hrest⟩ := halike
    obtain ⟨hfeed, hesc, hafter, hlt⟩ := Print.feed_sends hv hp hcur hfirst
    rw [sendsAll, Screens.feed_append, hfeed, Option.bind_some, ← hafter]
    exact ih hesc hps hlt (hafter.symm ▸ hrest)

/-- From every state that calls and moves of the host lead to: calls that print and fit into up-buffer 0
return, if they must not block and the host goes on; and a host that shows the active terminal shows each
text on its terminal, if every call of `SEGGER_RTT_TerminalOut` has an id that is alike and no text has a byte
0xFF (`Print.Clean`). -/
theorem terminals_agree {host : List Nat} (hask : ∀ ask ∈ host, ask < 2 ^ 31) {es : List Event}
    (hv : ∀ e ∈ es, e.Valid) {s : Target} (hr : exec Target.step (Target.init host) es = some s)
    {ps : List Print} (hclean : ∀ p ∈ ps, p.Clean) (halike : AllAlike s._ActiveTerminal ps)
    (hfits : (sendsAll s._ActiveTerminal ps).length ≤ s.free 0) {v : Screens} (hesc : v.escape = false)
    (hcur : v.current = s._ActiveTerminal) :
    (s.mode 0 ≠ SEGGER_RTT_MODE_BLOCK_IF_FIFO_FULL → 9 * ps.length ≤ s.host.length →
        ∃ s', printAll ps s = .ok () s') ∧
      ∀ s', printAll ps s = .ok () s' →
        ∃ bs, s'.sent 0 = s.sent 0 ++ bs ∧ v.feed bs = some (shownAll v ps) := by
  have hok := ok_run hask hv hr
  refine ⟨fun hmode hhost => ?_, fun s' hrun => ?_⟩
  · obtain ⟨_, s', hrun, -⟩ := returns_prints hclean s 0 ⟨hok, hmode, by omega⟩
    exact ⟨s', hrun⟩
  · refine ⟨_, prints_sends hok hclean hfits hrun, ?_⟩
    have hactive := hok.active
    rw [← hcur] at hactive halike ⊢
    exact feed_sendsAll hesc hclean hactive halike

/-- terminal 11 is made active, then a text goes to terminal 10 and one to the active one -/
def somePrints : List Print := [.set 11, .out 10 [104, 105], .write [106]]

theorem somePrints_clean : ∀ p ∈ somePrints, p.Clean := by decide

set_option maxRecDepth 100000 in
theorem terminals_agree_some : ∃ s', printAll somePrints (Target.init (List.replicate 27 0)) = .ok () s' ∧
    ∃ bs, s'.sent 0 = [] ++ bs ∧ Screens.blank.feed bs = some (shownAll .blank somePrints) :=
  have h := @terminals_agree (List.replicate 27 0) (by decide) [] (fun _ he => by cases he) _ rfl somePrints
    somePrints_clean ⟨trivial, fun _ => by decide, trivial, trivial⟩ (by decide) .blank rfl rfl
  have hrun := h.1 (by decide) (by decide)
  hrun.elim fun s' hs' => ⟨s', hs', h.2 s' hs'⟩

/-- From every such state: a call of `SEGGER_RTT_TerminalOut` that fits returns, if it must not block and the
host goes on.  When it returns, with the length of the text, it has sent an escape, the text and another escape;
before that one a host shows the text on its terminal, and the last escape leaves it at the active terminal if
and only if both ids are below 10 or both are not.  The text has no byte 0xFF, which would begin an escape. -/
theorem terminalOut_restores_iff {host : List Nat} (hask : ∀ ask ∈ host, ask < 2 ^ 31) {es : List Event}
    (hv : ∀ e ∈ es, e.Valid) {s : Target} (hr : exec Target.step (Target.init host) es = some s)
    {id : Byte} {text : List Byte} (hid : id < 16) (hz : 0 ∉ text) (hff : 0xFF ∉ text)
    (hfits : text.length + 4 ≤ s.free 0) {v : Screens} (hesc : v.escape = false) :
    (s.mode 0 ≠ SEGGER_RTT_MODE_BLOCK_IF_FIFO_FULL → 9 ≤ s.host.length →
        ∃ s', SEGGER_RTT_TerminalOut id (some (text ++ [0])) s = .ok text.length s') ∧
      ∀ r s', SEGGER_RTT_TerminalOut id (some (text ++ [0])) s = .ok r s' →
        r = text.length ∧ ∃ c, terminalChar id = some c ∧
          s'.sent 0 = s.sent 0 ++ ([0xFF, c] ++ text ++ [0xFF, returnChar id s._ActiveTerminal]) ∧
          v.feed ([0xFF, c] ++ text) = some { v.put id text with current := id } ∧
          (v.feed ([0xFF, c] ++ text ++ [0xFF, returnChar id s._ActiveTerminal]) =
              some { v.put id text with current := s._ActiveTerminal } ↔
            (id < 10 ↔ s._ActiveTerminal < 10)) := by
  have hok := ok_run hask hv hr
  obtain ⟨c, hc⟩ := exists_terminalChar hid
  have hlt := hok.free_lt 0
  refine ⟨fun hmode hhost => ?_, fun r s' hrun => ?_⟩
  · obtain ⟨r, s', hrun, -⟩ := returns_terminalOut id hz (by omega) s 0 ⟨hok, hmode, hhost⟩
    rw [(terminalOut_sends hok hz hc hfits hrun).1] at hrun
    exact ⟨s', hrun⟩
  · obtain ⟨hret, hsends⟩ := terminalOut_sends hok hz hc hfits hrun
    refine ⟨hret, c, hc, by rw [hsends.sent, extend_self], text_shown hesc hc hff, ?_⟩
    rw [returnChar_shown hesc hc hff, ← idOf_returnChar hid hok.active, Option.map_eq_some_iff]
    constructor
    · rintro ⟨back, hback, he⟩
      have hcur : back = s._ActiveTerminal := congrArg Screens.current he
      rw [hback, hcur]
    · exact fun hback => ⟨_, hback, rfl⟩

set_option maxRecDepth 100000 in
/-- a text to terminal 12, while terminal 0 is active -/
theorem terminalOut_restores_iff_mixed : ∃ s',
    SEGGER_RTT_TerminalOut 12 (some [104, 0]) (Target.init (List.replicate 9 0)) = .ok 1 s' ∧
      ∃ c, s'.sent 0 = [0xFF, c] ++ [104] ++ [0xFF, returnChar 12 0] ∧
        Screens.blank.feed ([0xFF, c] ++ [104]) = some { Screens.blank.put 12 [104] with current := 12 } ∧
        Screens.blank.feed ([0xFF, c] ++ [104] ++ [0xFF, returnChar 12 0]) ≠
          some { Screens.blank.put 12 [104] with current := 0 } := by
  have h := @terminalOut_restores_iff (List.replicate 9 0) (by decide) [] (fun _ he => by cases he) _ rfl 12 [104]
    (by decide) (by decide) (by decide) (by decide) .blank rfl
  obtain ⟨s', hrun⟩ := h.1 (by decide) (by decide)
  obtain ⟨-, c, -, hsent, htext, hiff⟩ := h.2 _ _ hrun
  refine ⟨s', hrun, c, hsent, htext, fun hfeed => ?_⟩
  have hmixed := hiff.mp hfeed
  revert hmixed
  decide

end Rtt
end Pharoah
