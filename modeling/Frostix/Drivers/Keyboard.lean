import Frostix.Lib.Ring
import Frostix.Lib.Transition
import Frostix.Libc

/-!
The keyboard driver (`ps2.c`). The interrupt handler stores characters in a ring of 256
slots and `ps2_get_char` takes them out, one access to the shared indices at a time, so
that an interrupt may come between any two of them. -/
namespace Frostix.Drivers

open Libc Ring Transition

/-- `key_t`. -/
structure Key where
  normal : Byte
  shifted : Byte

def Key.of (normal shifted : Char) : Key := ⟨ascii normal, ascii shifted⟩

/-- `us_keymap`; a scancode without an entry has no characters. -/
def usKeymap (code : Nat) : Key :=
  match code with
  | 0x1C => .of '\n' '\n' | 0x39 => .of ' ' ' ' | 0x0E => ⟨8#8, 8#8⟩ | 0x0F => .of '\t' '\t'
  | 0x02 => .of '1' '!' | 0x03 => .of '2' '@' | 0x04 => .of '3' '#' | 0x05 => .of '4' '$'
  | 0x06 => .of '5' '%' | 0x07 => .of '6' '^' | 0x08 => .of '7' '&' | 0x09 => .of '8' '*'
  | 0x0A => .of '9' '(' | 0x0B => .of '0' ')' | 0x0C => .of '-' '_' | 0x0D => .of '=' '+'
  | 0x10 => .of 'q' 'Q' | 0x11 => .of 'w' 'W' | 0x12 => .of 'e' 'E' | 0x13 => .of 'r' 'R'
  | 0x14 => .of 't' 'T' | 0x15 => .of 'y' 'Y' | 0x16 => .of 'u' 'U' | 0x17 => .of 'i' 'I'
  | 0x18 => .of 'o' 'O' | 0x19 => .of 'p' 'P' | 0x1A => ⟨0x5B#8, 0x7B#8⟩ | 0x1B => ⟨0x5D#8, 0x7D#8⟩
  | 0x1E => .of 'a' 'A' | 0x1F => .of 's' 'S' | 0x20 => .of 'd' 'D' | 0x21 => .of 'f' 'F'
  | 0x22 => .of 'g' 'G' | 0x23 => .of 'h' 'H' | 0x24 => .of 'j' 'J' | 0x25 => .of 'k' 'K'
  | 0x26 => .of 'l' 'L' | 0x27 => .of ';' ':' | 0x28 => ⟨0x27#8, 0x22#8⟩
  | 0x2B => ⟨0x5C#8, 0x7C#8⟩ | 0x2C => .of 'z' 'Z' | 0x2D => .of 'x' 'X' | 0x2E => .of 'c' 'C'
  | 0x2F => .of 'v' 'V' | 0x30 => .of 'b' 'B' | 0x31 => .of 'n' 'N' | 0x32 => .of 'm' 'M'
  | 0x33 => .of ',' '<' | 0x34 => .of '.' '>' | 0x35 => .of '/' '?' | 0x29 => ⟨0x60#8, 0x7E#8⟩
  | _ => ⟨0#8, 0#8⟩

/-- The static variables of the driver. `% KEYBOARD_BUFFER_SIZE` is the addition of the
index type. -/
structure Keyboard where
  keyboardBuffer : Fin 256 → Byte
  bufferHead : Fin 256
  bufferTail : Fin 256
  leftShift : Bool
  rightShift : Bool
  capsLock : Bool

def Keyboard.keyChar (kb : Keyboard) (key : Key) : Byte :=
  let shiftActive := kb.leftShift || kb.rightShift
  let useUpper := kb.capsLock != shiftActive
  if isAlpha key.normal then if useUpper then toUpper key.normal else key.normal
  else if shiftActive then key.shifted else key.normal

def Keyboard.store (kb : Keyboard) (c : Byte) : Keyboard :=
  { kb with
    keyboardBuffer := Function.update kb.keyboardBuffer kb.bufferTail c
    bufferTail := kb.bufferTail + 1 }

/-- `keyboard_handler` on the scancode that it reads from port 0x60. -/
def keyboardHandler (kb : Keyboard) (scancode : Byte) : Keyboard :=
  let code := scancode.toNat % 128
  if 128 ≤ scancode.toNat then
    if code = 0x2A then { kb with leftShift := false }
    else if code = 0x36 then { kb with rightShift := false }
    else kb
  else if code = 0x2A then { kb with leftShift := true }
  else if code = 0x36 then { kb with rightShift := true }
  else if code = 0x3A then { kb with capsLock := !kb.capsLock }
  else if (usKeymap code).normal ≠ 0#8 then
    let c := kb.keyChar (usKeymap code)
    if c ≠ 0#8 then kb.store c else kb
  else kb

/-- Where the caller of `ps2_get_char` stands: outside, at the loop condition, behind the
loop, or with the character but before the new `buffer_head` is stored. -/
inductive Reader where
  | outside
  | polling
  | found
  | fetched (c : Byte)

/-- The driver with its reader, the characters that the handler accepted and those that
`ps2_get_char` returned. -/
structure System where
  kb : Keyboard
  reader : Reader
  accepted : List Byte
  returned : List Byte

inductive Event where
  | interrupt (scancode : Byte)
  | read

def Keyboard.typed (kb : Keyboard) (scancode : Byte) : Option Byte :=
  let code := scancode.toNat % 128
  if 128 ≤ scancode.toNat ∨ code = 0x2A ∨ code = 0x36 ∨ code = 0x3A then none
  else if (usKeymap code).normal ≠ 0#8 ∧ kb.keyChar (usKeymap code) ≠ 0#8 then
    some (kb.keyChar (usKeymap code))
  else none

/-- The next action of `ps2_get_char`. -/
def System.read (s : System) : System :=
  match s.reader with
  | .outside => { s with reader := .polling }
  | .polling => if s.kb.bufferHead = s.kb.bufferTail then s else { s with reader := .found }
  | .found => { s with reader := .fetched (s.kb.keyboardBuffer s.kb.bufferHead) }
  | .fetched c =>
      { s with
        kb := { s.kb with bufferHead := s.kb.bufferHead + 1 }
        reader := .outside
        returned := s.returned ++ [c] }

def System.next (s : System) : Event → System
  | .interrupt scancode =>
      { s with
        kb := keyboardHandler s.kb scancode
        accepted := s.accepted ++ (s.kb.typed scancode).toList }
  | .read => s.read

def System.start : System where
  kb := ⟨fun _ => 0#8, 0, 0, false, false, false⟩
  reader := .outside
  accepted := []
  returned := []

def Keyboard.pending (kb : Keyboard) : List Byte :=
  window kb.keyboardBuffer kb.bufferHead (count kb.bufferHead kb.bufferTail)

/-- A new character is added behind the waiting ones, or dropped when 255 are waiting;
otherwise what was read and what is waiting stay the same sequence. -/
def Event.Faithful (s : System) (e : Event) : Prop :=
  match e with
  | .interrupt scancode =>
      match s.kb.typed scancode with
      | some c => (s.next e).kb.pending = s.kb.pending ++ [c] ∨
          255 ≤ s.kb.pending.length ∧ (s.next e).kb.pending = s.kb.pending
      | none => (s.next e).kb.pending = s.kb.pending
  | .read => (s.next e).returned ++ (s.next e).kb.pending = s.returned ++ s.kb.pending

def Event.Room (s : System) : Event → Prop
  | .interrupt scancode => (s.kb.typed scancode).isSome → s.kb.pending.length < 255
  | .read => True

/-- The handler stores the character it types and leaves the ring alone otherwise. -/
theorem keyboardHandler_ring (kb : Keyboard) (scancode : Byte) :
    (∃ c, kb.typed scancode = some c ∧ keyboardHandler kb scancode = kb.store c) ∨
      kb.typed scancode = none ∧ ∃ left right caps, keyboardHandler kb scancode =
        { kb with leftShift := left, rightShift := right, capsLock := caps } := by
  unfold keyboardHandler Keyboard.typed
  dsimp only
  generalize scancode.toNat % 128 = code
  by_cases hrelease : 128 ≤ scancode.toNat
  · right
    rw [if_pos hrelease, if_pos (Or.inl hrelease)]
    refine ⟨rfl, ?_⟩
    split_ifs <;> exact ⟨_, _, _, rfl⟩
  rw [if_neg hrelease]
  by_cases hmodifier : code = 0x2A ∨ code = 0x36 ∨ code = 0x3A
  · right
    rw [if_pos (Or.inr hmodifier)]
    refine ⟨rfl, ?_⟩
    rcases hmodifier with rfl | rfl | rfl <;> exact ⟨_, _, _, rfl⟩
  · rw [if_neg (not_or.mpr ⟨hrelease, hmodifier⟩)]
    obtain ⟨h1, h2, h3⟩ : code ≠ 0x2A ∧ code ≠ 0x36 ∧ code ≠ 0x3A := by simpa [not_or] using hmodifier
    rw [if_neg h1, if_neg h2, if_neg h3]
    by_cases hkey : (usKeymap code).normal ≠ 0#8
    · by_cases hchar : kb.keyChar (usKeymap code) ≠ 0#8
      · left
        rw [if_pos hkey, if_pos hchar, if_pos ⟨hkey, hchar⟩]
        exact ⟨_, rfl, rfl⟩
      · right
        rw [if_pos hkey, if_neg hchar, if_neg fun h => hchar h.2]
        exact ⟨rfl, _, _, _, rfl⟩
    · right
      rw [if_neg hkey, if_neg fun h => hkey h.1]
      exact ⟨rfl, _, _, _, rfl⟩

theorem pending_store {kb : Keyboard} (hroom : kb.pending.length < 255) (c : Byte) :
    (kb.store c).pending = kb.pending ++ [c] := by
  have hcount : count kb.bufferHead kb.bufferTail + 1 < 256 := by
    rw [Keyboard.pending, length_window] at hroom
    omega
  unfold Keyboard.pending Keyboard.store
  rw [count_push hcount]
  exact window_push _ c

theorem pending_store_full {kb : Keyboard} (hfull : ¬ kb.pending.length < 255) (c : Byte) :
    (kb.store c).pending = [] := by
  have hcount : count kb.bufferHead kb.bufferTail + 1 = 256 := by
    have hlt := count_lt kb.bufferHead kb.bufferTail
    rw [Keyboard.pending, length_window] at hfull
    omega
  unfold Keyboard.pending Keyboard.store
  rw [count_push_full hcount]
  rfl

/-- The reader acts on a character that is still at the head of the ring, and nothing was
lost or reordered. -/
structure System.Intact (s : System) : Prop where
  reader : match s.reader with
    | .outside | .polling => True
    | .found => s.kb.pending ≠ []
    | .fetched c => ∃ rest, s.kb.pending = c :: rest
  sequence : s.returned ++ s.kb.pending = s.accepted

theorem pending_of_ne {kb : Keyboard} (hne : kb.bufferHead ≠ kb.bufferTail) :
    kb.pending = kb.keyboardBuffer kb.bufferHead ::
      { kb with bufferHead := kb.bufferHead + 1 }.pending := by
  unfold Keyboard.pending
  dsimp only
  rw [← count_pop hne, window_succ]

theorem pending_eq_nil {kb : Keyboard} : kb.pending = [] ↔ kb.bufferHead = kb.bufferTail := by
  rw [← List.length_eq_zero_iff, Keyboard.pending, length_window, count_eq_zero]

/-- Every action of the reader keeps what is read and what is waiting. -/
theorem read_intact {s : System} (h : s.Intact) :
    s.read.returned ++ s.read.kb.pending = s.returned ++ s.kb.pending ∧ s.read.Intact := by
  obtain ⟨hreader, hseq⟩ := h
  unfold System.read
  cases hcase : s.reader with
  | outside => exact ⟨rfl, trivial, hseq⟩
  | polling =>
      dsimp only
      split
      · exact ⟨rfl, by rw [hcase]; trivial, hseq⟩
      · rename_i hne
        exact ⟨rfl, fun hnil => hne (pending_eq_nil.mp hnil), hseq⟩
  | found =>
      rw [hcase] at hreader
      have hne : s.kb.bufferHead ≠ s.kb.bufferTail := fun heq => hreader (pending_eq_nil.mpr heq)
      exact ⟨rfl, ⟨_, pending_of_ne hne⟩, hseq⟩
  | fetched c =>
      rw [hcase] at hreader
      obtain ⟨rest, hrest⟩ := hreader
      have hne : s.kb.bufferHead ≠ s.kb.bufferTail := by
        intro heq
        rw [pending_eq_nil.mpr heq] at hrest
        cases hrest
      have hpop := pending_of_ne hne
      rw [hrest] at hpop
      obtain ⟨hc, htail⟩ := List.cons.inj hpop
      have hkeep : (s.returned ++ [c]) ++ { s.kb with bufferHead := s.kb.bufferHead + 1 }.pending =
          s.returned ++ s.kb.pending := by
        rw [hrest, htail, List.append_assoc, List.singleton_append]
      exact ⟨hkeep, trivial, hkeep.trans hseq⟩

theorem event_faithful_iff (s : System) (e : Event) (h : s.Intact) : e.Faithful s ↔ e.Room s := by
  cases e with
  | read => exact iff_of_true (read_intact h).1 trivial
  | interrupt scancode =>
      unfold Event.Faithful Event.Room System.next
      dsimp only
      rcases keyboardHandler_ring s.kb scancode with ⟨c, htyped, hrun⟩ | ⟨htyped, l, r, k, hrun⟩
      · rw [htyped, hrun]
        dsimp only
        by_cases hroom : s.kb.pending.length < 255
        · exact iff_of_true (Or.inl (pending_store hroom c)) fun _ => hroom
        · rw [pending_store_full hroom]
          refine iff_of_false ?_ fun hall => hroom (hall rfl)
          rintro (happ | ⟨-, hsame⟩)
          · exact List.append_ne_nil_of_right_ne_nil _ (List.cons_ne_nil c []) happ.symm
          · rw [← hsame] at hroom
            exact hroom (by decide)
      · rw [htyped, hrun]
        exact iff_of_true rfl nofun

theorem event_intact (s : System) (e : Event) (h : s.Intact) (hroom : e.Room s) :
    (s.next e).Intact := by
  cases e with
  | read => exact (read_intact h).2
  | interrupt scancode =>
      obtain ⟨hreader, hseq⟩ := h
      change (s.kb.typed scancode).isSome → s.kb.pending.length < 255 at hroom
      unfold System.next
      rcases keyboardHandler_ring s.kb scancode with ⟨c, htyped, hrun⟩ | ⟨htyped, l, r, k, hrun⟩
      · rw [htyped] at hroom
        have hpush := pending_store (hroom rfl) c
        refine ⟨?_, ?_⟩
        · dsimp only
          rw [hrun]
          cases hcase : s.reader with
          | outside => trivial
          | polling => trivial
          | found =>
              rw [hpush]
              exact List.append_ne_nil_of_right_ne_nil _ (List.cons_ne_nil c [])
          | fetched d =>
              rw [hcase] at hreader
              obtain ⟨rest, hrest⟩ := hreader
              exact ⟨rest ++ [c], by rw [hpush, hrest, List.cons_append]⟩
        · dsimp only
          rw [hrun, hpush, htyped, ← List.append_assoc, hseq]
          rfl
      · refine ⟨?_, ?_⟩
        · dsimp only
          rw [hrun]
          exact hreader
        · dsimp only
          rw [hrun, htyped, Option.toList_none, List.append_nil]
          exact hseq

/-- In every interleaving the ring works as a queue exactly as long as no character comes
while 255 are waiting; and then what was returned and what is waiting is what was accepted. -/
theorem keyboard_queue (events : List Event) :
    (Throughout System.next (fun s e => e.Faithful s) .start events ↔
        Throughout System.next (fun s e => e.Room s) .start events) ∧
      (Throughout System.next (fun s e => e.Room s) .start events →
        (events.foldl System.next .start).returned ++ (events.foldl System.next .start).kb.pending =
          (events.foldl System.next .start).accepted) := by
  have h := @throughout_iff _ _ System.next _ _ _ event_faithful_iff event_intact events .start
    ⟨trivial, rfl⟩
  exact ⟨h.1, fun hroom => (h.2 hroom).sequence⟩

/-- 256 presses of `a` without a read in between leave an empty ring. -/
theorem keyboard_overflow :
    ¬ ∀ events, Throughout System.next (fun s e => Event.Faithful s e) .start events := by
  intro h
  have hlast := h (List.replicate 256 (.interrupt 0x1E#8))
  obtain ⟨hiff, hintact⟩ := @throughout_iff _ _ System.next _ _ _ event_faithful_iff event_intact
    (List.replicate 256 (.interrupt 0x1E#8)) .start ⟨trivial, rfl⟩
  have hseq := congrArg List.length (hintact (hiff.mp hlast)).sequence
  rw [List.length_append, Keyboard.pending, length_window] at hseq
  have hdata : ((List.replicate 256 (Event.interrupt 0x1E#8)).foldl System.next .start).accepted.length = 256 ∧
      ((List.replicate 256 (Event.interrupt 0x1E#8)).foldl System.next .start).returned.length = 0 := by
    decide +kernel
  rw [hdata.1, hdata.2, Nat.zero_add] at hseq
  exact absurd (hseq ▸ count_lt _ _) (lt_irrefl 256)

end Frostix.Drivers
