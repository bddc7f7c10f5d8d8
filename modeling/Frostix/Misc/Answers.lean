import Frostix.Libc.PrintfRead
import Frostix.Misc.Shell

/-!
What the shell prints, typed back. The answers to `alloc_page`, `kmalloc`, `slab_alloc` and
`vma_mmap` name an address, once by `%x`, once by `%lx` and twice by `%p`; the commands that give
the memory back read it with `hex_to_u32` or `strtoul`. -/
namespace Frostix.Misc

open ByteMemory Machine32 Fields Libc Libc.Printf

/-- `0x%x` and `0x%lx`. -/
def hexWord (addr : Nat) : List Byte := literal "0x" ++ zeroPadded 16 0 addr

/-- `0x%p`. -/
def pointerWord (addr : Nat) : List Byte := literal "0x" ++ zeroPadded 16 8 addr true

def arguments (ws : List Nat) : VaList := fun i => BitVec.ofNat 32 (ws.getD i 0)

def allocPageAnswer : List Byte := literal "Allocated physical page at 0x%x\n"
def kmallocAnswer : List Byte := literal "Allocated %zu bytes at 0x%p\n"
def slabAllocAnswer : List Byte := literal "Allocated object from '%s' at 0x%p\n"
def vmaMmapAnswer : List Byte := literal "Mapped anonymous region at 0x%lx (requested start: 0x%lx)\n"

variable {addr n : Nat}

theorem hex_room (h : addr < 2 ^ 32) : (numeral 16 addr).length ≤ ntoaBufferSize :=
  le_trans ((numeral_length_le_iff (by decide) (k := 8) (by decide) _).mpr (by omega)) (by decide)

theorem decimal_room (h : n < 2 ^ 32) : (numeral 10 n).length ≤ ntoaBufferSize :=
  le_trans ((numeral_length_le_iff (by decide) (k := 10) (by decide) _).mpr (by omega)) (by decide)

theorem word_padded {base width : Nat} (hbase : 2 ≤ base) (hwidth : width ≤ ntoaBufferSize)
    (hroom : (numeral base n).length ≤ ntoaBufferSize) (h : n < 2 ^ 32) {uppercase : Bool} :
    ntoaText (BitVec.ofNat 32 n).toNat false base 0 width { zeropad := true, uppercase } =
      zeroPadded base width n uppercase := by
  rw [BitVec.toNat_ofNat, Nat.mod_eq_of_lt h, ntoaText_zeroPadded hbase hwidth hroom]

theorem word_digits {base : Nat} (hbase : 2 ≤ base) (hroom : (numeral base n).length ≤ ntoaBufferSize)
    (h : n < 2 ^ 32)
    {long : Bool} : ntoaText (BitVec.ofNat 32 n).toNat false base 0 0 { long } = zeroPadded base 0 n := by
  rw [BitVec.toNat_ofNat, Nat.mod_eq_of_lt h, ntoaText_digits hbase hroom]

/-- Padded digits behind `0x` are read as their number. -/
theorem strtoul_word (h : addr < 2 ^ 32) (width : Nat) (uppercase : Bool) :
    strtoul (literal "0x" ++ zeroPadded 16 width addr uppercase) 16 = addr := by
  have hdigits : ∀ d ∈ numeral 16 addr ++ List.replicate (width - (numeral 16 addr).length) 0, d < 16 := by
    intro d hd
    rcases List.mem_append.mp hd with hd | hd
    · exact numeral_lt (by decide) addr d hd
    · rw [List.eq_of_mem_replicate hd]
      decide
  have htext : zeroPadded 16 width addr uppercase =
      ((numeral 16 addr ++ List.replicate (width - (numeral 16 addr).length) 0).map (digitChar uppercase)).reverse := by
    rw [zeroPadded, List.map_append, List.reverse_append, List.map_replicate, List.reverse_replicate,
      digitChar_zero]
  have hread := strtoul_prefixed uppercase hdigits 0 0 ended_nil (.inl rfl)
  rw [Nat.ofDigits_append_replicate_zero, ofDigits_numeral, wrap_of_lt h] at hread
  refine Eq.trans ?_ hread
  rw [htext, List.replicate_zero, List.append_nil, List.append_nil]
  rfl

theorem hexToU32_word (h : addr < 2 ^ 32) (width : Nat) (uppercase : Bool) :
    hexToU32 (literal "0x" ++ zeroPadded 16 width addr uppercase) = addr := by
  have hhead : ∀ c ∈ (literal "0x" ++ zeroPadded 16 width addr uppercase).head?,
      c ∉ [ascii ' ', ascii '\t', ascii '\n', ascii '\r', ascii '+'] := by
    intro c hc
    obtain rfl : ascii '0' = c := Option.some.inj hc
    decide
  exact (hexToU32_eq hhead).1.trans (strtoul_word h width uppercase)

theorem parseLine_words {line cmd : List Byte} {ws : List (List Byte)} {k : Nat} {run : (Nat → List Byte) → Command}
    {usage : List Byte} (hline : splitWords line = cmd :: ws)
    (hfind : branches.find? (fun b => b.name = cmd) = some ⟨cmd, .words k run usage⟩) (hk : k ≤ ws.length) :
    parseLine line = some (run fun i => (ws.take k).getD i []) := by
  have htoken : token (isIn [ascii ' ']) line ≠ [] := by
    intro h
    rw [splitWords, fields_eq_nil h] at hline
    exact List.cons_ne_nil cmd ws hline.symm
  rw [splitWords, fields_eq_cons htoken] at hline
  obtain ⟨rfl, hws⟩ := List.cons.inj hline
  have happly : (Arguments.words k run usage).apply (rest (isIn [ascii ' ']) line).tail =
      run fun i => (ws.take k).getD i [] := by
    rw [Arguments.apply, splitWords, hws, if_pos hk]
  rw [parseLine, if_neg htoken, hfind]
  exact congrArg some happly

theorem allocPage_answer (m : Mem) (h : addr < 2 ^ 32) :
    formatText m allocPageAnswer (arguments [addr]) =
      some (literal "Allocated physical page at " ++ (hexWord addr ++ literal "\n")) := by
  have htext : formatText m allocPageAnswer (arguments [addr]) = some (literal "Allocated physical page at " ++
      (literal "0x" ++ ntoaText (BitVec.ofNat 32 addr).toNat false 16 0 0 {} ++ literal "\n")) := rfl
  rw [htext, word_digits (by decide) (hex_room h) h]
  rfl

theorem kmalloc_answer (m : Mem) (h : addr < 2 ^ 32) (hn : n < 2 ^ 32) :
    formatText m kmallocAnswer (arguments [n, addr]) = some (literal "Allocated " ++ (zeroPadded 10 0 n ++
      (literal " bytes at " ++ (pointerWord addr ++ literal "\n")))) := by
  have htext : formatText m kmallocAnswer (arguments [n, addr]) = some (literal "Allocated " ++
      (ntoaText (BitVec.ofNat 32 n).toNat false 10 0 0 { long := true } ++ (literal " bytes at " ++
        (literal "0x" ++ ntoaText (BitVec.ofNat 32 addr).toNat false 16 0 8 { zeropad := true, uppercase := true } ++
          literal "\n")))) := rfl
  rw [htext, word_digits (by decide) (decimal_room hn) hn, word_padded (by decide) (by decide) (hex_room h) h]
  rfl

theorem slabAlloc_answer {m : Mem} {ptr : Nat} {name : List Byte} (hname : CString m ptr name)
    (h : addr < 2 ^ 32) :
    formatText m slabAllocAnswer (arguments [ptr, addr]) = some (literal "Allocated object from '" ++ (name ++
      (literal "' at " ++ (pointerWord addr ++ literal "\n")))) := by
  have hptr : ((arguments [ptr, addr]) 0).toNat = ptr :=
    (BitVec.toNat_ofNat ptr 32).trans (Nat.mod_eq_of_lt (lt_of_le_of_lt (Nat.le_add_right _ _) hname.lt))
  have hrest : formatTextFrom m 11 (literal "' at 0x%p\n") ((arguments [ptr, addr]).drop 1) = some (literal "' at " ++
      (literal "0x" ++ ntoaText (BitVec.ofNat 32 addr).toNat false 16 0 8 { zeropad := true, uppercase := true } ++
        literal "\n")) := rfl
  rw [word_padded (by decide) (by decide) (hex_room h) h] at hrest
  have hstring := @formatTextFrom_segment m (literal "Allocated object from '") rfl _ _ _ _ _
    (directiveText_string (hptr.symm ▸ hname) (literal "' at 0x%p\n")) 11
  exact hstring.trans (congrArg (Option.map _) hrest)

theorem vmaMmap_answer (m : Mem) (h : addr < 2 ^ 32) (hn : n < 2 ^ 32) :
    formatText m vmaMmapAnswer (arguments [addr, n]) = some (literal "Mapped anonymous region at " ++ (hexWord addr ++
      (literal " (requested start: " ++ (hexWord n ++ literal ")\n")))) := by
  have htext : formatText m vmaMmapAnswer (arguments [addr, n]) = some (literal "Mapped anonymous region at " ++
      (literal "0x" ++ ntoaText (BitVec.ofNat 32 addr).toNat false 16 0 0 { long := true } ++
        (literal " (requested start: " ++ (literal "0x" ++
          ntoaText (BitVec.ofNat 32 n).toNat false 16 0 0 { long := true } ++ literal ")\n")))) := rfl
  rw [htext, word_digits (by decide) (hex_room h) h, word_digits (by decide) (hex_room hn) hn]
  rfl

/-- Every address that the shell prints is the address that the matching command gets when the
printed word is typed in its place. -/
theorem answers_typed_back {m : Mem} {addr n ptr : Nat} {name : List Byte} (h : addr < 2 ^ 32) (hn : n < 2 ^ 32)
    (hname : CString m ptr name) :
    (formatText m allocPageAnswer (arguments [addr]) =
        some (literal "Allocated physical page at " ++ (hexWord addr ++ literal "\n")) ∧
      ∀ line, splitWords line = [literal "free_page", hexWord addr] → parseLine line = some (.freePage addr)) ∧
    (formatText m kmallocAnswer (arguments [n, addr]) = some (literal "Allocated " ++ (zeroPadded 10 0 n ++
        (literal " bytes at " ++ (pointerWord addr ++ literal "\n")))) ∧
      ∀ line, splitWords line = [literal "kfree", pointerWord addr] → parseLine line = some (.kfree addr)) ∧
    (formatText m slabAllocAnswer (arguments [ptr, addr]) = some (literal "Allocated object from '" ++ (name ++
        (literal "' at " ++ (pointerWord addr ++ literal "\n")))) ∧
      ∀ line, splitWords line = [literal "slab_free", name, pointerWord addr] →
        parseLine line = some (.slabFree name addr)) ∧
    (formatText m vmaMmapAnswer (arguments [addr, n]) = some (literal "Mapped anonymous region at " ++ (hexWord addr ++
        (literal " (requested start: " ++ (hexWord n ++ literal ")\n")))) ∧
      ∀ line len, splitWords line = [literal "vma_munmap", hexWord addr, len] →
        parseLine line = some (.vmaMunmap addr (unsigned (atoi len)))) := by
  have hpage := hexToU32_word h 0 false
  have hpointer := hexToU32_word h 8 true
  refine ⟨⟨allocPage_answer m h, fun line hline => ?_⟩, ⟨kmalloc_answer m h hn, fun line hline => ?_⟩,
    ⟨slabAlloc_answer hname h, fun line hline => ?_⟩, ⟨vmaMmap_answer m h hn, fun line len hline => ?_⟩⟩
  · rw [parseLine_words hline rfl le_rfl]
    exact congrArg (fun a => some (Command.freePage a)) hpage
  · rw [parseLine_words hline rfl le_rfl]
    exact congrArg (fun a => some (Command.kfree a)) hpointer
  · rw [parseLine_words hline rfl le_rfl]
    exact congrArg (fun a => some (Command.slabFree name a)) hpointer
  · rw [parseLine_words hline rfl le_rfl]
    exact congrArg (fun a => some (Command.vmaMunmap a (unsigned (atoi len)))) (strtoul_word h 0 false)

/-- A pointer printed by `kmalloc` and typed into `kfree`, with a blank too many. -/
theorem answers_typed_back_pointer : parseLine (literal "kfree  0x001FF000") = some (.kfree 0x1FF000) :=
  (@answers_typed_back (Emit.place (fun _ => 0#8) 4096 (literal "obj" ++ [0#8])) 0x1FF000 16 4096 (literal "obj")
    (by decide) (by decide) (CString.place _ (by decide) (by decide))).2.1.2 _ (by rfl)

end Frostix.Misc
