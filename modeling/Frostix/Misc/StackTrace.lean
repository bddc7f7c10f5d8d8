import Frostix.Misc.Answers

/-!
The trace of the call stack (`ksym.c` and `stacktrace.c`). The stack is followed along the saved
frame pointers, each return address is named by the nearest symbol below it, and the lines go
into a buffer by one `snprintf` after the other. -/
namespace Frostix.Misc

open ByteMemory Machine32 Emit Libc Libc.Printf

structure Ksym where
  addr : Nat
  name : Nat

/-- The table of the section `.ksym`, the older table, and the two names that stand for no
symbol. A table that is not linked is empty. -/
structure SymbolTables where
  ksym : List Ksym
  symbols : List Ksym
  unknown : Nat
  noSymbols : Nat

/-- A round of the search, with the best address so far and its name. -/
def closer (addr : Nat) (best : Nat × Nat) (s : Ksym) : Nat × Nat :=
  if s.addr ≤ addr ∧ best.1 < s.addr then (s.addr, s.name) else best

/-- `ksym_lookup`, with the name and the offset. -/
def ksymLookup (t : SymbolTables) (addr : Nat) : Nat × Nat :=
  if !t.ksym.isEmpty then
    let best := t.ksym.foldl (closer addr) (0, t.unknown)
    (best.2, wsub addr best.1)
  else if !t.symbols.isEmpty then
    let best := t.symbols.foldl (closer addr) (0, t.unknown)
    (if best.1 = 0 then t.noSymbols else best.2, wsub addr best.1)
  else (t.noSymbols, addr)

/-- The nearest symbol of a table at or below an address, the first one of equals. A symbol at 0
is none. -/
inductive Nearest (addr : Nat) : List Ksym → Option Ksym → Prop
  | nothing {table : List Ksym} (h : ∀ s ∈ table, s.addr = 0 ∨ addr < s.addr) : Nearest addr table none
  | found {before after : List Ksym} {s : Ksym} (hpos : 0 < s.addr) (hle : s.addr ≤ addr)
      (hbefore : ∀ r ∈ before, r.addr ≤ addr → r.addr < s.addr)
      (hafter : ∀ r ∈ after, r.addr ≤ addr → r.addr ≤ s.addr) : Nearest addr (before ++ s :: after) (some s)

def bestOf (unknown : Nat) : Option Ksym → Nat × Nat
  | none => (0, unknown)
  | some s => (s.addr, s.name)

theorem Nearest.closer {addr unknown : Nat} {table : List Ksym} {o : Option Ksym} (h : Nearest addr table o)
    (s : Ksym) : ∃ o', Nearest addr (table ++ [s]) o' ∧
      Misc.closer addr (bestOf unknown o) s = bestOf unknown o' := by
  cases h with
  | nothing hnone =>
      by_cases hs : s.addr ≤ addr ∧ 0 < s.addr
      · refine ⟨some s, .found hs.2 hs.1 (fun r hr hle => ?_) (fun r hr => absurd hr List.not_mem_nil), if_pos hs⟩
        rcases hnone r hr with hzero | hlt
        · exact hzero ▸ hs.2
        · exact absurd hle (Nat.not_le.mpr hlt)
      · refine ⟨none, .nothing fun r hr => ?_, if_neg hs⟩
        rcases List.mem_append.mp hr with hr | hr
        · exact hnone r hr
        · rw [List.mem_singleton.mp hr]
          omega
  | @found before after best hpos hle hbefore hafter =>
      by_cases hs : s.addr ≤ addr ∧ best.addr < s.addr
      · refine ⟨some s, .found (by omega) hs.1 (fun r hr hr' => ?_) (fun r hr => absurd hr List.not_mem_nil), if_pos hs⟩
        rcases List.mem_append.mp hr with hr | hr
        · exact lt_trans (hbefore r hr hr') hs.2
        · rcases List.mem_cons.mp hr with rfl | hr
          · exact hs.2
          · exact lt_of_le_of_lt (hafter r hr hr') hs.2
      · rw [List.append_assoc, List.cons_append]
        refine ⟨some best, .found hpos hle hbefore fun r hr hr' => ?_, if_neg hs⟩
        rcases List.mem_append.mp hr with hr | hr
        · exact hafter r hr hr'
        · rw [List.mem_singleton.mp hr] at hr' ⊢
          omega

theorem nearest_search (addr unknown : Nat) (table : List Ksym) :
    ∃ o, Nearest addr table o ∧ table.foldl (closer addr) (0, unknown) = bestOf unknown o := by
  induction table using List.reverseRecOn with
  | nil => exact ⟨none, .nothing fun s hs => absurd hs List.not_mem_nil, rfl⟩
  | append_singleton table s ih =>
      obtain ⟨o, hnear, hfold⟩ := ih
      rw [List.foldl_append, hfold]
      exact hnear.closer s

/-- The nearest symbol is one. -/
theorem Nearest.unique {addr : Nat} {table : List Ksym} {o o' : Option Ksym} (h : Nearest addr table o)
    (h' : Nearest addr table o') : o = o' := by
  cases h with
  | nothing hnone =>
      cases h' with
      | nothing _ => rfl
      | @found before after s hpos hle _ _ =>
          have hs := hnone s (List.mem_append_right before List.mem_cons_self)
          omega
  | @found before after s hpos hle hbefore hafter =>
      generalize htable : before ++ s :: after = table at h'
      cases h' with
      | nothing hnone =>
          have hs := hnone s (htable ▸ List.mem_append_right before List.mem_cons_self)
          omega
      | @found before' after' s' hpos' hle' hbefore' hafter' =>
          rcases List.append_eq_append_iff.mp htable with ⟨k, hk, hrest⟩ | ⟨k, hk, hrest⟩
          · cases k with
            | nil => exact congrArg some (List.cons.inj hrest).1
            | cons r k =>
                obtain ⟨rfl, hafterk⟩ := List.cons.inj hrest
                have hlt := hbefore' s (hk ▸ List.mem_append_right before List.mem_cons_self) hle
                have hle' := hafter s' (hafterk ▸ List.mem_append_right k List.mem_cons_self) hle'
                omega
          · cases k with
            | nil => exact congrArg some (List.cons.inj hrest).1.symm
            | cons r k =>
                obtain ⟨rfl, hafterk⟩ := List.cons.inj hrest
                have hlt := hbefore s' (hk ▸ List.mem_append_right before' List.mem_cons_self) hle'
                have hge := hafter' s (hafterk ▸ List.mem_append_right k List.mem_cons_self) hle
                omega

theorem Nearest.le {addr : Nat} {table : List Ksym} {s : Ksym} (h : Nearest addr table (some s)) :
    0 < s.addr ∧ s.addr ≤ addr ∧ s ∈ table := by
  cases h with
  | found hpos hle _ _ => exact ⟨hpos, hle, List.mem_append_right _ List.mem_cons_self⟩

def SymbolTables.table (t : SymbolTables) : List Ksym := if !t.ksym.isEmpty then t.ksym else t.symbols

def SymbolTables.answer (t : SymbolTables) (addr : Nat) : Option Ksym → Nat × Nat
  | none => (if !t.ksym.isEmpty then t.unknown else t.noSymbols, addr)
  | some s => (s.name, addr - s.addr)

theorem nearest_answer (t : SymbolTables) {addr : Nat} (haddr : addr < 2 ^ 32) :
    ∃ o, Nearest addr t.table o ∧ ksymLookup t addr = t.answer addr o := by
  have hzero : wsub addr 0 = addr := wsub_of_le haddr (Nat.zero_le addr)
  unfold ksymLookup SymbolTables.table
  by_cases hksym : (!t.ksym.isEmpty) = true
  · obtain ⟨o, hnear, hfold⟩ := nearest_search addr t.unknown t.ksym
    simp only [if_pos hksym, hfold]
    refine ⟨o, hnear, ?_⟩
    cases o with
    | none => exact Prod.ext (if_pos hksym).symm hzero
    | some s => exact congrArg (Prod.mk s.name) (wsub_of_le haddr hnear.le.2.1)
  · simp only [if_neg hksym]
    obtain ⟨o, hnear, hfold⟩ := nearest_search addr t.unknown t.symbols
    refine ⟨o, hnear, ?_⟩
    by_cases hsymbols : (!t.symbols.isEmpty) = true
    · simp only [if_pos hsymbols, hfold]
      cases o with
      | none => exact Prod.ext (if_neg hksym).symm hzero
      | some s => exact Prod.ext (if_neg hnear.le.1.ne') (wsub_of_le haddr hnear.le.2.1)
    · have hempty : t.symbols = [] := by simpa using hsymbols
      rw [hempty] at hnear
      cases o with
      | none => exact (if_neg hsymbols).trans (Prod.ext (if_neg hksym).symm rfl)
      | some s => exact absurd hnear.le.2.2 List.not_mem_nil

/-- `ksym_lookup` names every address by the nearest symbol of its table. -/
theorem ksym_lookup_nearest (t : SymbolTables) {addr : Nat} (haddr : addr < 2 ^ 32) :
    (∃ o, Nearest addr t.table o) ∧ ∀ o, Nearest addr t.table o → ksymLookup t addr = t.answer addr o := by
  obtain ⟨o, hnear, hlookup⟩ := nearest_answer t haddr
  exact ⟨⟨o, hnear⟩, fun o' hnear' => (hnear'.unique hnear) ▸ hlookup⟩

/-- Of two symbols at one address the first names it. -/
theorem ksym_lookup_nearest_first :
    ksymLookup ⟨[⟨0x1000, 1⟩, ⟨0x1200, 2⟩, ⟨0x1200, 3⟩, ⟨0x2000, 4⟩], [], 8, 9⟩ 0x1234 = (2, 0x34) := by
  refine (@ksym_lookup_nearest ⟨[⟨0x1000, 1⟩, ⟨0x1200, 2⟩, ⟨0x1200, 3⟩, ⟨0x2000, 4⟩], [], 8, 9⟩ 0x1234
    (by decide)).2 (some ⟨0x1200, 2⟩) ?_
  exact @Nearest.found 0x1234 [⟨0x1000, 1⟩] [⟨0x1200, 3⟩, ⟨0x2000, 4⟩] ⟨0x1200, 2⟩ (by decide)
    (by decide) (by simp)
    (by simp)

def SymbolTables.names (t : SymbolTables) : List Nat := t.unknown :: t.noSymbols :: t.table.map Ksym.name

theorem ksymLookup_named (t : SymbolTables) {addr : Nat} (haddr : addr < 2 ^ 32) :
    (ksymLookup t addr).1 ∈ t.names ∧ (ksymLookup t addr).2 < 2 ^ 32 := by
  obtain ⟨o, hnear, hlookup⟩ := nearest_answer t haddr
  rw [hlookup]
  cases o with
  | none =>
      refine ⟨?_, haddr⟩
      unfold SymbolTables.answer SymbolTables.names
      dsimp only
      split_ifs
      · exact List.mem_cons_self
      · exact List.mem_cons_of_mem _ List.mem_cons_self
  | some s =>
      have hname : s.name ∈ t.table.map Ksym.name := List.mem_map_of_mem hnear.le.2.2
      exact ⟨List.mem_cons_of_mem _ (List.mem_cons_of_mem _ hname), lt_of_le_of_lt (Nat.sub_le _ _) haddr⟩

/-- `frame->ebp`, the frame of the caller. -/
def savedEbp (m : Mem) (frame : Nat) : Nat := load32 m frame

/-- `frame->eip`. -/
def returnAddress (m : Mem) (frame : Nat) : Nat := load32 m (frame + 4)

def maxFrames : Nat := 32

def traceHeader : List Byte := literal "--- STACK TRACE ---\n"
def traceFooter : List Byte := literal "--------------------\n"
def frameFormat : List Byte := literal "  [%02u] 0x%08x: %s+0x%x\n"

/-- `off += snprintf(buf + off, (off < bufsize) ? bufsize - off : 0, ...)`. -/
def appendFormat (buf bufsize : Nat) (format : List Byte) (va : VaList) (s : Mem × Nat) : Option (Mem × Nat) :=
  (vsnprintf (wrap (buf + s.2)) (if s.2 < bufsize then bufsize - s.2 else 0) format va s.1).map fun r =>
    (r.1, wrap (s.2 + unsigned r.2))

/-- A word of a frame. The kernel stops with a page fault where the memory is not mapped. -/
def frameWord (mapped : Nat → Bool) (m : Mem) (addr : Nat) : Option Nat :=
  if (List.range 4).all (fun i => mapped (addr + i)) then some (load32 m addr) else none

/-- The loop over the frames, with the rounds that are left. A null pointer is not above the
frame. -/
def traceFrames (t : SymbolTables) (mapped : Nat → Bool) (buf bufsize : Nat) :
    Nat → Nat → Nat → Mem × Nat → Option (Mem × Nat)
  | 0, _, _, s => some s
  | left + 1, i, frame, s =>
      if frame = 0 then some s
      else do
        let ret ← frameWord mapped s.1 (frame + 4)
        if ret = 0 then some s
        else
          let symbol := ksymLookup t ret
          let s ← appendFormat buf bufsize frameFormat (arguments [i, ret, symbol.1, symbol.2]) s
          let next ← frameWord mapped s.1 frame
          if next ≤ frame ∨ 0xF0000000 < next then some s else traceFrames t mapped buf bufsize left (i + 1) next s

/-- `stack_trace_to_buffer`, called with the frame pointer `ebp`. -/
def stackTraceToBuffer (t : SymbolTables) (mapped : Nat → Bool) (ebp buf bufsize : Nat) (m : Mem) : Option Mem :=
  if buf = 0 ∨ bufsize = 0 then some m
  else do
    let s ← appendFormat buf bufsize traceHeader (arguments []) (m, 0)
    let s ← traceFrames t mapped buf bufsize maxFrames 0 ebp s
    let s ← appendFormat buf bufsize traceFooter (arguments []) s
    some (if bufsize ≤ s.2 then store8 s.1 (wrap (buf + (bufsize - 1))) 0#8 else s.1)

def visited (m : Mem) : Nat → Nat → List Nat
  | 0, _ => []
  | left + 1, frame =>
      if frame = 0 then []
      else if returnAddress m frame = 0 ∨ savedEbp m frame ≤ frame ∨ 0xF0000000 < savedEbp m frame then [frame]
      else frame :: visited m left (savedEbp m frame)

/-- The return addresses on the stack, the innermost first. A null address ends the stack. -/
def callers (m : Mem) (left frame : Nat) : List Nat :=
  ((visited m left frame).map (returnAddress m)).filter (· ≠ 0)

def frameLine (t : SymbolTables) (nameOf : Nat → List Byte) (i ret : Nat) : List Byte :=
  literal "  [" ++ (zeroPadded 10 2 i ++ (literal "] 0x" ++ (zeroPadded 16 8 ret ++ (literal ": " ++
    (nameOf (ksymLookup t ret).1 ++ (literal "+0x" ++ (zeroPadded 16 0 (ksymLookup t ret).2 ++ literal "\n")))))))

/-- The lines of a stack from frame `i` on. -/
def frameLines (t : SymbolTables) (nameOf : Nat → List Byte) (i : Nat) (rets : List Nat) : List Byte :=
  (rets.zipIdx i).flatMap fun p => frameLine t nameOf p.2 p.1

def traceText (t : SymbolTables) (nameOf : Nat → List Byte) (m : Mem) (ebp : Nat) : List Byte :=
  traceHeader ++ frameLines t nameOf 0 (callers m maxFrames ebp) ++ traceFooter

/-- The names are strings and the frames words that the buffer does not reach, and the frames are
mapped. -/
structure Traceable (t : SymbolTables) (mapped : Nat → Bool) (nameOf : Nat → List Byte) (m : Mem)
    (ebp buf bufsize : Nat) : Prop where
  names : ∀ p ∈ t.names, CString m p (nameOf p) ∧ (p + (nameOf p).length < buf ∨ buf + bufsize ≤ p)
  frames : ∀ frame ∈ visited m maxFrames ebp, frame + 8 ≤ buf ∨ buf + bufsize ≤ frame
  present : ∀ frame ∈ visited m maxFrames ebp, frame + 8 ≤ 2 ^ 32 ∧ ∀ i < 8, mapped (frame + i) = true

section Trace

variable {t : SymbolTables} {mapped : Nat → Bool} {nameOf : Nat → List Byte} {m : Mem} {ebp buf bufsize : Nat}

theorem unsigned_sint {n : Nat} (h : n < 2 ^ 32) : unsigned (sint n) = n := by
  unfold unsigned sint
  rw [show (2 ^ 32 : Int) = ((2 ^ 32 : Nat) : Int) by norm_num, Int.bmod_emod]
  omega

/-- One `snprintf` at an offset, whether there is room for it or not. -/
theorem appendFormat_eq {format text : List Byte} {va : VaList} {off : Nat}
    (htext : formatText m format va = some text)
    (hlen : off + text.length < 2 ^ 32) (hbuf : buf ≠ 0) (hend : buf + bufsize ≤ 2 ^ 32) :
    appendFormat buf bufsize format va (m, off) =
      some (if off < bufsize then textBuffer m (buf + off) (bufsize - off) text else m, off + text.length) := by
  have hoff : wrap (off + unsigned (sint text.length)) = off + text.length := by
    rw [unsigned_sint (by omega), wrap_of_lt hlen]
  unfold appendFormat
  by_cases hroom : off < bufsize
  · simp only [if_pos hroom]
    rw [wrap_of_lt (by omega), snprintf_stores htext (by omega) (by omega) (by omega) (by omega),
      Option.map_some, hoff]
  · simp only [if_neg hroom]
    rw [snprintf_measures htext (by omega) (wrap_lt _).le, Option.map_some, hoff]

theorem appendFormat_text {format text more : List Byte} {va : VaList}
    (hmore : formatText (textBuffer m buf bufsize text) format va = some more)
    (hlen : (text ++ more).length < 2 ^ 32) (hbuf : buf ≠ 0) (hend : buf + bufsize ≤ 2 ^ 32) :
    appendFormat buf bufsize format va (textBuffer m buf bufsize text, text.length) =
      some (textBuffer m buf bufsize (text ++ more), (text ++ more).length) := by
  rw [List.length_append] at hlen ⊢
  rw [appendFormat_eq hmore hlen hbuf hend]
  split_ifs with hroom
  · rw [textBuffer_append hroom]
  · rw [textBuffer_full (Nat.le_of_not_lt hroom)]

theorem formatText_plain {format : List Byte} (hplain : format.all (· != ascii '%') = true) (va : VaList) :
    formatText m format va = some format := by
  have h := @formatTextFrom_plain m format hplain 0 [] va
  rw [List.append_nil, Nat.add_zero] at h
  rw [formatText, h, formatTextFrom, Option.map_some, List.append_nil]

theorem frameFormat_text {i ret name off : Nat} {text : List Byte} (hi : i < 2 ^ 32) (hret : ret < 2 ^ 32)
    (hoff : off < 2 ^ 32) (hname : CString m name text) :
    formatText m frameFormat (arguments [i, ret, name, off]) =
      some (literal "  [" ++ (zeroPadded 10 2 i ++ (literal "] 0x" ++ (zeroPadded 16 8 ret ++ (literal ": " ++
        (text ++ (literal "+0x" ++ (zeroPadded 16 0 off ++ literal "\n")))))))) := by
  generalize hargs : arguments [i, ret, name, off] = va
  obtain ⟨hva₀, hva₁, hva₂, hva₃⟩ : va 0 = BitVec.ofNat 32 i ∧ va 1 = BitVec.ofNat 32 ret ∧
      va 2 = BitVec.ofNat 32 name ∧ va 3 = BitVec.ofNat 32 off := by
    rw [← hargs]
    exact ⟨rfl, rfl, rfl, rfl⟩
  have hindex : directiveText m (readDirective (literal "02u] 0x%08x: %s+0x%x\n") va) =
      some (zeroPadded 10 2 i, literal "] 0x%08x: %s+0x%x\n", va.drop 1) := by
    rw [← word_padded (by decide) (by decide) (decimal_room hi) hi, ← hva₀]
    rfl
  have haddr : directiveText m (readDirective (literal "08x: %s+0x%x\n") (va.drop 1)) =
      some (zeroPadded 16 8 ret, literal ": %s+0x%x\n", va.drop 2) := by
    rw [← word_padded (by decide) (by decide) (hex_room hret) hret, ← hva₁]
    rfl
  have hend : formatTextFrom m 13 (literal "+0x%x\n") (va.drop 3) =
      some (literal "+0x" ++ (zeroPadded 16 0 off ++ literal "\n")) := by
    rw [← word_digits (by decide) (hex_room hoff) hoff, ← hva₃]
    rfl
  have hstring : CString m (va 2).toNat text := by
    rw [hva₂, BitVec.toNat_ofNat, Nat.mod_eq_of_lt (lt_of_le_of_lt (Nat.le_add_right _ _) hname.lt)]
    exact hname
  have hnamed := (@formatTextFrom_segment m (literal ": ") rfl _ _ _ _ _
    (@directiveText_string m text (va.drop 2) hstring (literal "+0x%x\n")) 13).trans (congrArg (Option.map _) hend)
  have hplaced := (@formatTextFrom_segment m (literal "] 0x") rfl _ _ _ _ _ haddr 16).trans
    (congrArg (Option.map _) hnamed)
  exact (@formatTextFrom_segment m (literal "  [") rfl _ _ _ _ _ hindex 21).trans
    (congrArg (Option.map _) hplaced)

theorem Traceable.line (h : Traceable t mapped nameOf m ebp buf bufsize)
    (hsize : 0 < bufsize) {i ret : Nat} (hi : i < 2 ^ 32)
    (hret : ret < 2 ^ 32) (text : List Byte) :
    formatText (textBuffer m buf bufsize text) frameFormat
      (arguments [i, ret, (ksymLookup t ret).1, (ksymLookup t ret).2]) = some (frameLine t nameOf i ret) := by
  obtain ⟨hname, hapart⟩ := h.names _ (ksymLookup_named t hret).1
  refine frameFormat_text hi hret (ksymLookup_named t hret).2 (hname.congr fun x hlo hhi => ?_)
  exact @textBuffer_same m buf bufsize text hsize _ ((nameOf (ksymLookup t ret).1).length + 1) (by omega) x hlo
    (by omega)

theorem frame_same (hsize : 0 < bufsize) {frame : Nat} (h : frame + 8 ≤ buf ∨ buf + bufsize ≤ frame)
    (text : List Byte) : returnAddress (textBuffer m buf bufsize text) frame = returnAddress m frame ∧
      savedEbp (textBuffer m buf bufsize text) frame = savedEbp m frame :=
  ⟨load32_congr (textBuffer_same text hsize (by omega)), load32_congr (textBuffer_same text hsize (by omega))⟩

theorem frameLines_cons (i ret : Nat) (rets : List Nat) :
    frameLines t nameOf i (ret :: rets) = frameLine t nameOf i ret ++ frameLines t nameOf (i + 1) rets := rfl

theorem callers_null {left frame : Nat} (h : frame = 0 ∨ returnAddress m frame = 0) :
    callers m left frame = [] := by
  unfold callers
  cases left with
  | zero => rfl
  | succ left =>
      rw [visited]
      by_cases hnull : frame = 0
      · rw [if_pos hnull]
        rfl
      · have hret := h.resolve_left hnull
        rw [if_neg hnull, if_pos (.inl hret)]
        simp [hret]

theorem callers_cons {left frame : Nat} (hnull : frame ≠ 0) (hret : returnAddress m frame ≠ 0) :
    callers m (left + 1) frame = returnAddress m frame ::
      if savedEbp m frame ≤ frame ∨ 0xF0000000 < savedEbp m frame then [] else callers m left (savedEbp m frame) := by
  unfold callers
  rw [visited, if_neg hnull]
  simp only [hret, false_or]
  split_ifs with hstop
  · simp [hret]
  · simp [hret]

theorem frameWord_eq {addr : Nat} (h : ∀ i < 4, mapped (addr + i) = true) :
    frameWord mapped m addr = some (load32 m addr) := by
  refine if_pos (List.all_eq_true.mpr fun i hi => ?_)
  exact h i (List.mem_range.mp hi)

theorem mem_visited {left frame : Nat} (hnull : frame ≠ 0) : frame ∈ visited m (left + 1) frame := by
  rw [visited, if_neg hnull]
  split_ifs
  · exact List.mem_singleton_self frame
  · exact List.mem_cons_self

theorem visited_step {left frame : Nat} (hnull : frame ≠ 0) (hret : returnAddress m frame ≠ 0)
    (hstop : ¬(savedEbp m frame ≤ frame ∨ 0xF0000000 < savedEbp m frame)) {f : Nat}
    (hf : f ∈ visited m left (savedEbp m frame)) : f ∈ visited m (left + 1) frame := by
  rw [visited, if_neg hnull, if_neg (not_or.mpr ⟨hret, hstop⟩)]
  exact List.mem_cons_of_mem frame hf

/-- The loop prints the stack behind the text that is there. -/
theorem Traceable.traceFrames (h : Traceable t mapped nameOf m ebp buf bufsize) (hbuf : buf ≠ 0)
    (hsize : 0 < bufsize) (hend : buf + bufsize ≤ 2 ^ 32) (left : Nat) :
    ∀ {i frame : Nat} {text : List Byte}, i + left ≤ maxFrames →
    (∀ f ∈ visited m left frame, f ∈ visited m maxFrames ebp) →
    (text ++ frameLines t nameOf i (callers m left frame)).length < 2 ^ 32 →
    Misc.traceFrames t mapped buf bufsize left i frame (textBuffer m buf bufsize text, text.length) =
      some (textBuffer m buf bufsize (text ++ frameLines t nameOf i (callers m left frame)),
        (text ++ frameLines t nameOf i (callers m left frame)).length) := by
  induction left with
  | zero =>
      intro i frame text _ _ _
      have hlines : frameLines t nameOf i (callers m 0 frame) = [] := rfl
      rw [hlines, List.append_nil]
      rfl
  | succ left ih =>
      intro i frame text hi hframes hlen
      have hmax : maxFrames < 2 ^ 32 := by decide
      rw [Misc.traceFrames]
      by_cases hnull : frame = 0
      · rw [if_pos hnull, callers_null (.inl hnull), show frameLines t nameOf i [] = [] from rfl, List.append_nil]
      have hvisit := hframes frame (mem_visited hnull)
      have hsame := @frame_same m buf bufsize hsize frame (h.frames frame hvisit)
      obtain ⟨-, hpresent⟩ := h.present frame hvisit
      have heip : ∀ m', frameWord mapped m' (frame + 4) = some (returnAddress m' frame) := fun m' =>
        frameWord_eq fun j hj => by
          rw [Nat.add_assoc]
          exact hpresent (4 + j) (by omega)
      have hebp : ∀ m', frameWord mapped m' frame = some (savedEbp m' frame) := fun m' =>
        frameWord_eq fun j hj => hpresent j (by omega)
      rw [if_neg hnull]
      simp only [Option.bind_eq_bind, heip, hebp, Option.bind_some, (hsame text).1]
      by_cases hret : returnAddress m frame = 0
      · rw [if_pos hret, callers_null (.inr hret), show frameLines t nameOf i [] = [] from rfl, List.append_nil]
      rw [callers_cons hnull hret, frameLines_cons, ← List.append_assoc] at hlen ⊢
      have hline : (text ++ frameLine t nameOf i (returnAddress m frame)).length < 2 ^ 32 := by
        rw [List.length_append] at hlen
        omega
      have happend := appendFormat_text (h.line hsize (i := i) (by omega) (load32_lt m (frame + 4)) text) hline hbuf
        hend
      have hnext := (hsame (text ++ frameLine t nameOf i (returnAddress m frame))).2
      rw [show load32 m (frame + 4) = returnAddress m frame from rfl] at happend
      rw [if_neg hret, happend]
      simp only [Option.bind_some, hnext]
      split_ifs at hlen ⊢ with hstop
      · rw [show frameLines t nameOf (i + 1) [] = [] from rfl, List.append_nil]
      · exact ih (by omega) (fun f hf => hframes f (visited_step hnull hret hstop hf)) hlen

theorem visited_length_le (left frame : Nat) : (visited m left frame).length ≤ left := by
  induction left generalizing frame with
  | zero => exact le_rfl
  | succ left ih =>
      rw [visited]
      split_ifs
      · exact Nat.zero_le _
      · exact Nat.succ_le_succ (Nat.zero_le left)
      · exact Nat.succ_le_succ (ih _)

theorem visited_ge (left : Nat) {frame f : Nat} (h : f ∈ visited m left frame) : frame ≤ f := by
  induction left generalizing frame with
  | zero => exact absurd h List.not_mem_nil
  | succ left ih =>
      rw [visited] at h
      split_ifs at h with hnull hstop
      · exact absurd h List.not_mem_nil
      · exact (List.mem_singleton.mp h).ge
      · rcases List.mem_cons.mp h with rfl | h
        · exact le_rfl
        · have hnext := ih h
          omega

theorem visited_ascending (left frame : Nat) : (visited m left frame).Pairwise (· < ·) := by
  induction left generalizing frame with
  | zero => exact List.Pairwise.nil
  | succ left ih =>
      rw [visited]
      split_ifs with hnull hstop
      · exact List.Pairwise.nil
      · exact List.pairwise_singleton _ frame
      · refine List.pairwise_cons.mpr ⟨fun f hf => ?_, ih _⟩
        have hnext := visited_ge left hf
        omega

/-- Wherever the frame pointers lead in mapped memory, the walk goes up the stack and ends; the buffer
receives the longest part of the trace that fits in front of a NUL, and no byte outside of it is changed. -/
theorem stack_trace_truncated {t : SymbolTables} {mapped : Nat → Bool} {nameOf : Nat → List Byte} {m : Mem} {ebp buf bufsize : Nat}
    (h : Traceable t mapped nameOf m ebp buf bufsize) (hbuf : buf ≠ 0) (hsize : 0 < bufsize)
    (hend : buf + bufsize ≤ 2 ^ 32) (hlen : (traceText t nameOf m ebp).length < 2 ^ 32) :
    (visited m maxFrames ebp).Pairwise (· < ·) ∧ (visited m maxFrames ebp).length ≤ maxFrames ∧
      stackTraceToBuffer t mapped ebp buf bufsize m =
        some (place m buf ((traceText t nameOf m ebp).take (bufsize - 1) ++ [0#8])) := by
  refine ⟨visited_ascending _ ebp, visited_length_le _ ebp, ?_⟩
  have hheader : appendFormat buf bufsize traceHeader (arguments []) (m, 0) =
      some (textBuffer m buf bufsize traceHeader, traceHeader.length) := by
    rw [appendFormat_eq (formatText_plain rfl _) (by decide) hbuf hend, if_pos hsize, Nat.zero_add]
    rfl
  have hlines : (traceHeader ++ frameLines t nameOf 0 (callers m maxFrames ebp)).length < 2 ^ 32 := by
    rw [traceText, List.length_append] at hlen
    omega
  have hframes := h.traceFrames hbuf hsize hend maxFrames (i := 0) (le_of_eq (Nat.zero_add _))
    (fun _ hf => hf) hlines
  have hfooter := @appendFormat_text m buf bufsize traceFooter
    (traceHeader ++ frameLines t nameOf 0 (callers m maxFrames ebp)) _ _
    (formatText_plain rfl (arguments [])) hlen
    hbuf hend
  rw [stackTraceToBuffer, if_neg (not_or.mpr ⟨hbuf, by omega⟩)]
  simp only [hheader, Option.bind_eq_bind, Option.bind_some, hframes, hfooter]
  split_ifs with hfull
  · rw [wrap_of_lt (by omega), textBuffer_end hsize hfull]
    rfl
  · rfl

end Trace

/-- A stack with one frame, which returns into `main`. -/
def mainMemory : Mem := place (place (fun _ => 0#8) 0x100 (literal "main" ++ [0#8])) 0x204 [0x34#8, 0x10#8]

def mainSymbols : SymbolTables := ⟨[⟨0x1000, 0x100⟩], [], 0x180, 0x190⟩

def mainNames : Nat → List Byte := fun p => if p = 0x100 then literal "main" else []

def mainPage : Nat → Bool := fun a => a < 4096

theorem stack_trace_truncated_main : stackTraceToBuffer mainSymbols mainPage 0x200 0x300 50 mainMemory =
    some (place mainMemory 0x300 (literal "--- STACK TRACE ---\n  [00] 0x00001034: main+0x34\n" ++ [0#8])) := by
  have hmain : CString mainMemory 0x100 (literal "main") :=
    (CString.place (fun _ => 0#8) (by decide) (by decide)).congr fun x hlo hhi =>
      @place_same [0x34#8, 0x10#8] _ 0x204 0x100 5 (by decide) x hlo (Nat.lt_succ_of_le hhi)
  have hnames : mainSymbols.names = [0x180, 0x190, 0x100] := rfl
  have htrace : Traceable mainSymbols mainPage mainNames mainMemory 0x200 0x300 50 := by
    refine ⟨fun p hp => ?_, by decide, by decide⟩
    rw [hnames] at hp
    rcases List.mem_cons.mp hp with rfl | hp
    · exact ⟨⟨by decide, by decide⟩, by decide⟩
    rcases List.mem_cons.mp hp with rfl | hp
    · exact ⟨⟨by decide, by decide⟩, by decide⟩
    · obtain rfl := List.mem_singleton.mp hp
      exact ⟨hmain, by decide⟩
  exact (@stack_trace_truncated mainSymbols mainPage mainNames mainMemory 0x200 0x300 50 htrace (by decide) (by decide)
    (by decide) (by decide)).2.2

end Frostix.Misc
