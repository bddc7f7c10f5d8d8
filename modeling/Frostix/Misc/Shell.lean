import Frostix.Libc.Hex
import Frostix.Libc.PrintfString
import Frostix.Misc.ReadLine

/-!
The shell (`shell.c`) as an interpreter of typed lines. A line is cut into words by `strtok` and
its first word is compared with the names of the commands, one after the other. What a command
makes the kernel do and print is a parameter; which command runs, and with which arguments, is
not. -/
namespace Frostix.Misc

open ByteMemory Machine32 Fields Libc Libc.Printf

inductive Command where
  | help
  | echo (arg : Option (List Byte))
  | clear
  | heapInfo
  | pmmInfo
  | allocPage
  | freePage (addr : Nat)
  | kmalloc (size : Nat)
  | kfree (ptr : Nat)
  | vmmMap (virt phys flags : Nat)
  | vmmUnmap (virt : Nat)
  | vmaMmap (addr len flags : Nat)
  | vmaMunmap (addr len : Nat)
  | vmaInfo
  | vmaDestroy
  | slabCreate (name : List Byte) (size align : Nat)
  | slabDestroy (name : List Byte)
  | slabAlloc (name : List Byte)
  | slabFree (name : List Byte) (obj : Nat)
  | slabInfo (name : List Byte)
  | initrdInfo
  | initrdLs
  | initrdCat (path : List Byte)
  | usage (message : List Byte)
  | unknown (cmd : List Byte)

/-- How a branch of `shell_start` gets its arguments: the rest of the line, or some words, all of
which are fetched before the first is tested. -/
inductive Arguments where
  | behind (run : Option (List Byte) → Command)
  | words (n : Nat) (run : (Nat → List Byte) → Command) (usage : List Byte)

structure Branch where
  name : List Byte
  args : Arguments

def literal (s : String) : List Byte := s.toList.map ascii

/-- An `int` that is assigned to an unsigned variable. -/
def unsigned (i : Int) : Nat := (i % 2 ^ 32).toNat

def Branch.plain (name : String) (c : Command) : Branch := ⟨literal name, .words 0 (fun _ => c) []⟩

/-- The branches of `shell_start`, in their order. -/
def branches : List Branch := [
  .plain "help" .help,
  ⟨literal "echo", .behind .echo⟩,
  .plain "clear" .clear,
  .plain "heap_info" .heapInfo,
  .plain "pmm_info" .pmmInfo,
  .plain "alloc_page" .allocPage,
  ⟨literal "free_page", .words 1 (fun w => .freePage (hexToU32 (w 0))) (literal "Usage: free_page <hex_addr>\n")⟩,
  ⟨literal "kmalloc", .words 1 (fun w => .kmalloc (unsigned (atoi (w 0)))) (literal "Usage: kmalloc <size>\n")⟩,
  ⟨literal "kfree", .words 1 (fun w => .kfree (hexToU32 (w 0))) (literal "Usage: kfree <hex_ptr>\n")⟩,
  ⟨literal "vmm_map", .words 3 (fun w => .vmmMap (hexToU32 (w 0)) (hexToU32 (w 1)) (unsigned (atoi (w 2))))
    (literal "Usage: vmm_map <virt_hex> <phys_hex> <flags>\n")⟩,
  ⟨literal "vmm_unmap", .words 1 (fun w => .vmmUnmap (hexToU32 (w 0))) (literal "Usage: vmm_unmap <virt_hex>\n")⟩,
  ⟨literal "vma_mmap",
    .words 3 (fun w => .vmaMmap (strtoul (w 0) 16) (unsigned (atoi (w 1))) (unsigned (atoi (w 2))))
    (literal "Usage: vma_mmap <addr_hex> <len_decimal> <flags_decimal>\n")⟩,
  ⟨literal "vma_munmap", .words 2 (fun w => .vmaMunmap (strtoul (w 0) 16) (unsigned (atoi (w 1))))
    (literal "Usage: vma_munmap <addr_hex> <len_decimal>\n")⟩,
  .plain "vma_info" .vmaInfo,
  .plain "vma_destroy" .vmaDestroy,
  ⟨literal "slab_create", .words 3 (fun w => .slabCreate (w 0) (unsigned (atoi (w 1))) (unsigned (atoi (w 2))))
    (literal "Usage: slab_create <name> <size> <align>\n")⟩,
  ⟨literal "slab_destroy", .words 1 (fun w => .slabDestroy (w 0)) (literal "Usage: slab_destroy <name>\n")⟩,
  ⟨literal "slab_alloc", .words 1 (fun w => .slabAlloc (w 0)) (literal "Usage: slab_alloc <name>\n")⟩,
  ⟨literal "slab_free", .words 2 (fun w => .slabFree (w 0) (hexToU32 (w 1)))
    (literal "Usage: slab_free <name> <hex_ptr>\n")⟩,
  ⟨literal "slab_info", .words 1 (fun w => .slabInfo (w 0)) (literal "Usage: slab_info <name>\n")⟩,
  .plain "initrd_info" .initrdInfo,
  .plain "initrd_ls" .initrdLs,
  ⟨literal "initrd_cat", .words 1 (fun w => .initrdCat (w 0)) (literal "Usage: initrd_cat <path>\n")⟩]

def stringAt (m : Mem) (a : Nat) : Option (List Byte) := stringChars m false stringFuel a

/-- A branch: `strtok` goes on in the line. `lit` is where the literals stand. -/
def Arguments.read (lit : List Byte → Nat) (st : StrtokState) : Arguments → Option (Command × StrtokState)
  | .behind run => do
      let (arg, st) ← strtok st 0 (lit [])
      if arg ≠ 0 then
        let s ← stringAt st.mem arg
        some (run (some s), st)
      else some (run none, st)
  | .words n run usage => do
      let (ptrs, st) ← strtokCalls st 0 (List.replicate n (lit [ascii ' ']))
      if ptrs.all (· != 0) then
        let ws ← ptrs.mapM (stringAt st.mem)
        some (run fun i => ws.getD i [], st)
      else some (.usage usage, st)

/-- The chain of comparisons with `cmd`. -/
def dispatch (lit : List Byte → Nat) (st : StrtokState) (cmd : Nat) : List Branch → Option (Command × StrtokState)
  | [] => do
      let s ← stringAt st.mem cmd
      some (.unknown s, st)
  | b :: bs => do
      let difference ← strcmp st.mem cmd (lit b.name)
      if difference = 0 then b.args.read lit st else dispatch lit st cmd bs

def shellCommand (lit : List Byte → Nat) (st : StrtokState) (input : Nat) :
    Option (Option Command × StrtokState) := do
  let (cmd, st) ← strtok st input (lit [ascii ' '])
  if cmd = 0 then some (none, st)
  else
    let (c, st) ← dispatch lit st cmd branches
    some (some c, st)

def splitWords (line : List Byte) : List (List Byte) := fields (isIn [ascii ' ']) line

def Arguments.apply (behind : List Byte) : Arguments → Command
  | .behind run => run (if behind = [] then none else some behind)
  | .words n run usage =>
      if n ≤ (splitWords behind).length then run fun i => ((splitWords behind).take n).getD i [] else .usage usage

/-- What a line says: its first word names a command, and what is behind the blank that ends
this word are the arguments. -/
def parseLine (line : List Byte) : Option Command :=
  let cmd := token (isIn [ascii ' ']) line
  if cmd = [] then none
  else
    match branches.find? fun b => b.name = cmd with
    | some b => some (b.args.apply (rest (isIn [ascii ' ']) line).tail)
    | none => some (.unknown cmd)

variable {m : Mem} {a : Nat} {s : List Byte}

theorem stringAt_cstring (h : CString m a s) : stringAt m a = some s :=
  stringChars_cstring stringFuel h (lt_of_le_of_lt (Nat.le_add_left _ a) h.lt)

/-- The strings that `shell_start` passes to `strtok` and `strcmp`. -/
def literals : List (List Byte) := [] :: [ascii ' '] :: branches.map Branch.name

def Literals (m : Mem) (lit : List Byte → Nat) (input room : Nat) : Prop :=
  ∀ s ∈ literals, lit s ≠ 0 ∧ CString m (lit s) s ∧ (lit s + s.length < input ∨ input + room < lit s)

theorem Literals.congr {lit : List Byte → Nat} {input room : Nat} (h : Literals m lit input room) {m' : Mem}
    (hsame : ∀ x, x < input ∨ input + room < x → m' x = m x) : Literals m' lit input room := by
  intro s hs
  obtain ⟨hne, hstring, happart⟩ := h s hs
  refine ⟨hne, hstring.congr fun x hlo hhi => hsame x ?_, happart⟩
  omega

variable {lit : List Byte → Nat} {st : StrtokState} {input room : Nat} {c : Nat × List Byte}

theorem mapM_stringAt (hinput : input ≠ 0) : ∀ {tokens : List (Option (Nat × List Byte))} {ws : List (List Byte)},
    tokens.map (Option.map Prod.snd) = ws.map some → (∀ t, some t ∈ tokens → CString m (input + t.1) t.2) →
    (tokens.map (tokenPointer input)).mapM (stringAt m) = some ws ∧
      (tokens.map (tokenPointer input)).all (· != 0) = true := by
  intro tokens
  induction tokens with
  | nil =>
      intro ws h _
      obtain rfl := List.map_eq_nil_iff.mp h.symm
      exact ⟨rfl, rfl⟩
  | cons r tokens ih =>
      intro ws h hstrings
      cases ws with
      | nil => exact absurd h (List.cons_ne_nil _ _)
      | cons w ws =>
          rw [List.map_cons, List.map_cons] at h
          obtain ⟨hr, hrest⟩ := List.cons.inj h
          obtain ⟨t, rfl, rfl⟩ := Option.map_eq_some_iff.mp hr
          obtain ⟨hmap, hall⟩ := ih hrest fun t ht => hstrings t (List.mem_cons_of_mem _ ht)
          have hfirst : stringAt m (tokenPointer input (some t)) = some t.2 :=
            stringAt_cstring (hstrings t List.mem_cons_self)
          have hne : tokenPointer input (some t) ≠ 0 :=
            Nat.ne_of_gt (Nat.add_pos_left (Nat.pos_of_ne_zero hinput) _)
          refine ⟨?_, ?_⟩
          · rw [List.map_cons, List.mapM_cons, hfirst, hmap]
            rfl
          · rw [List.map_cons, List.all_cons, hall, Bool.and_true]
            exact bne_iff_ne.mpr hne

/-- Some calls of `strtok(NULL, " ")`. -/
theorem strtokCalls_words (hinput : input ≠ 0) (hres : Resumes st input c) (hlit : Literals st.mem lit input room)
    (hroom : c.2 ≠ [] → c.1 + c.2.length ≤ room) (n : Nat) :
    ∃ ptrs st', strtokCalls st 0 (List.replicate n (lit [ascii ' '])) = some (ptrs, st') ∧
      (∀ x, x < input ∨ input + room < x → st'.mem x = st.mem x) ∧
      if n ≤ (splitWords c.2).length then
        ptrs.mapM (stringAt st'.mem) = some ((splitWords c.2).take n) ∧ ptrs.all (· != 0) = true
      else ptrs.all (· != 0) = false := by
  have hblank := hlit [ascii ' '] (List.mem_cons_of_mem _ List.mem_cons_self)
  have hlast : ∀ t, some t ∈ tokensOf (List.replicate n (lit [ascii ' '], [ascii ' '])) c →
      t.1 + t.2.length ≤ room := by
    intro t ht
    by_cases hnil : c.2 = []
    · have hnone := cuts_nil _ c.1 (some t) (by rw [← hnil]; exact ht)
      exact absurd hnone (Option.some_ne_none t)
    · exact (add_length_le_of_mem_cuts ht).trans (hroom hnil)
  have hreads := readsDelims_of_apart hinput hres hlast fun call hcall => by
    rw [List.eq_of_mem_replicate hcall]
    exact hblank
  obtain ⟨st', hrun, hstrings, hframe⟩ := strtokCalls_resume hinput hres hreads
  rw [List.map_replicate] at hrun
  have htexts : (tokensOf (List.replicate n (lit [ascii ' '], [ascii ' '])) c).map (Option.map Prod.snd) =
      (List.range n).map fun i => (splitWords c.2)[i]? := by
    rw [tokensOf, List.map_replicate, cuts_replicate]
    rfl
  refine ⟨_, st', hrun, fun x hx => hframe x fun t ht => ?_, ?_⟩
  · have hle := hlast t ht
    omega
  · split_ifs with hn
    · refine mapM_stringAt hinput (htexts.trans ?_) hstrings
      refine List.ext_getElem? fun i => ?_
      rw [List.getElem?_map, List.getElem?_map, List.getElem?_take]
      by_cases hi : i < n
      · rw [List.getElem?_range hi, if_pos hi, Option.map_some, List.getElem?_eq_getElem (lt_of_lt_of_le hi hn)]
        rfl
      · rw [List.getElem?_eq_none (by rw [List.length_range]; omega), if_neg hi]
        rfl
    · have hmissing : none ∈ (tokensOf (List.replicate n (lit [ascii ' '], [ascii ' '])) c).map
        (Option.map Prod.snd) := by
        rw [htexts, List.mem_map]
        exact ⟨(splitWords c.2).length, List.mem_range.mpr (Nat.lt_of_not_le hn), List.getElem?_eq_none le_rfl⟩
      obtain ⟨r, hr, hnone⟩ := List.mem_map.mp hmissing
      refine List.all_eq_false.mpr ⟨0, List.mem_map.mpr ⟨r, hr, ?_⟩, by decide⟩
      rw [Option.map_eq_none_iff.mp hnone]
      rfl

/-- `strtok(NULL, "")` takes all that is left. -/
theorem cut_nothing (c : Nat × List Byte) :
    (cut (isIn []) c).1 = if c.2 = [] then none else some (c.1, c.2) := by
  have hno : isIn [] = fun _ => false := by
    funext b
    simp [isIn]
  have htoken : token (isIn []) c.2 = c.2 := by
    rw [token, hno, List.dropWhile_eq_self_iff.mpr fun _ => Bool.false_ne_true]
    exact List.takeWhile_eq_self_iff.mpr fun _ _ => rfl
  have hgap : gap (isIn []) c.2 = [] := by
    rw [gap, hno, List.takeWhile_eq_nil_iff]
    exact fun _ => Bool.false_ne_true
  split_ifs with hnil
  · rw [cut_none (htoken.trans hnil)]
  · rw [cut_some (htoken.symm ▸ hnil), htoken, hgap]
    rfl

/-- A branch reads its arguments from what is behind the command. -/
theorem arguments_read (hinput : input ≠ 0) (hres : Resumes st input c) (hlit : Literals st.mem lit input room)
    (hroom : c.2 ≠ [] → c.1 + c.2.length ≤ room) (args : Arguments) :
    ∃ st', args.read lit st = some (args.apply c.2, st') ∧
      ∀ x, x < input ∨ input + room < x → st'.mem x = st.mem x := by
  cases args with
  | behind run =>
      obtain ⟨hne, hempty, -⟩ := hlit [] List.mem_cons_self
      obtain ⟨st', hrun, -, hstring, hframe⟩ := strtok_spec hinput hres hempty hne
      rw [cut_nothing] at hrun hstring hframe
      refine ⟨st', ?_, fun x hx => hframe x ?_⟩
      · rw [Arguments.read, hrun, Arguments.apply]
        dsimp only [Option.bind_eq_bind, Option.bind_some]
        by_cases hnil : c.2 = []
        · rw [if_pos hnil, if_pos hnil]
          rfl
        · rw [if_neg hnil] at hstring
          have hfound : tokenPointer input (some (c.1, c.2)) ≠ 0 :=
            Nat.ne_of_gt (Nat.add_pos_left (Nat.pos_of_ne_zero hinput) _)
          rw [if_neg hnil, if_neg hnil, if_pos hfound]
          have hread : stringAt st'.mem (tokenPointer input (some (c.1, c.2))) = some c.2 :=
            stringAt_cstring (hstring _ rfl)
          rw [hread]
          rfl
      · intro t ht
        split_ifs at ht with hnil
        obtain rfl := Option.some.inj ht
        have hle := hroom hnil
        dsimp only
        omega
  | words n run usage =>
      obtain ⟨ptrs, st', hrun, hframe, hread⟩ := strtokCalls_words hinput hres hlit hroom n
      refine ⟨st', ?_, hframe⟩
      rw [Arguments.read, hrun, Arguments.apply]
      dsimp only [Option.bind_eq_bind, Option.bind_some]
      by_cases hn : n ≤ (splitWords c.2).length
      · rw [if_pos hn] at hread ⊢
        rw [if_pos hread.2, hread.1]
        rfl
      · rw [if_neg hn] at hread ⊢
        rw [if_neg (Bool.eq_false_iff.mp hread)]

theorem dispatch_spec (hinput : input ≠ 0) (hres : Resumes st input c) (hlit : Literals st.mem lit input room)
    (hroom : c.2 ≠ [] → c.1 + c.2.length ≤ room) {cmd : Nat} {word : List Byte} (hcmd : cmd ≠ 0)
    (hword : CString st.mem cmd word) : ∀ {bs : List Branch}, (∀ b ∈ bs, b.name ∈ literals) →
    ∃ st', dispatch lit st cmd bs = some (match bs.find? fun b => b.name = word with
        | some b => b.args.apply c.2
        | none => .unknown word, st') ∧
      ∀ x, x < input ∨ input + room < x → st'.mem x = st.mem x := by
  intro bs
  induction bs with
  | nil =>
      intro _
      refine ⟨st, ?_, fun _ _ => rfl⟩
      rw [dispatch, stringAt_cstring hword]
      rfl
  | cons b bs ih =>
      intro hnames
      obtain ⟨hne, hname, -⟩ := hlit b.name (hnames b List.mem_cons_self)
      have hcompare := strcmp_eq hword hname hcmd hne
      have hequal := firstDifference_eq_zero_iff hname.ne_nul hword.ne_nul
      rw [dispatch, hcompare]
      dsimp only [Option.bind_eq_bind, Option.bind_some]
      by_cases hfound : word = b.name
      · rw [if_pos (hequal.mpr hfound), List.find?_cons_of_pos (by simpa using hfound.symm)]
        exact arguments_read hinput hres hlit hroom b.args
      · rw [if_neg (mt hequal.mp hfound), List.find?_cons_of_neg (by simpa using fun h => hfound h.symm)]
        exact ih fun b' hb' => hnames b' (List.mem_cons_of_mem b hb')

/-- Every line runs the command that it says, and the line is all that is written. -/
theorem shellCommand_spec {line : List Byte} {last : Nat} (hinput : input ≠ 0) (hline : CString m input line)
    (hlen : line.length ≤ room) (hlit : Literals m lit input room) :
    ∃ st', shellCommand lit ⟨m, last⟩ input = some (parseLine line, st') ∧
      ∀ x, x < input ∨ input + room < x → st'.mem x = m x := by
  have hstart : Resumes ⟨m, input⟩ input (0, line) := .inr ⟨rfl, hline⟩
  obtain ⟨hblankNe, hblank, -⟩ := hlit [ascii ' '] (List.mem_cons_of_mem _ List.mem_cons_self)
  obtain ⟨st₁, hrun₁, hres₁, hstring₁, hframe₁⟩ := strtok_spec hinput hstart hblank hblankNe
  have hsplit := congrArg List.length (gap_append_token_append_rest (isIn [ascii ' ']) line)
  rw [List.length_append, List.length_append] at hsplit
  have hfirst : strtok ⟨m, last⟩ input (lit [ascii ' ']) = strtok ⟨m, input⟩ 0 (lit [ascii ' ']) :=
    strtok_first hinput _
  rw [shellCommand, hfirst, hrun₁, parseLine]
  dsimp only [Option.bind_eq_bind, Option.bind_some]
  by_cases hnone : token (isIn [ascii ' ']) line = []
  · rw [cut_none hnone] at hframe₁ ⊢
    refine ⟨st₁, ?_, fun x _ => hframe₁ x fun t ht => nomatch ht⟩
    have hzero : tokenPointer input none = 0 := rfl
    rw [if_pos hnone, if_pos hzero]
  · rw [cut_some hnone] at hres₁ hstring₁ hframe₁ ⊢
    have hword := hstring₁ _ rfl
    have hcmd : tokenPointer input (some (0 + (gap (isIn [ascii ' ']) line).length, token (isIn [ascii ' ']) line)) ≠ 0 :=
      Nat.ne_of_gt (Nat.add_pos_left (Nat.pos_of_ne_zero hinput) _)
    have hsame : ∀ x, x < input ∨ input + room < x → st₁.mem x = m x := by
      refine fun x hx => hframe₁ x fun t ht => ?_
      obtain rfl := Option.some.inj ht
      dsimp only
      omega
    obtain ⟨st', hrun, hframe⟩ := dispatch_spec hinput hres₁ (hlit.congr hsame) (fun hnil => by
      have hpos := List.length_pos_iff.mpr hnil
      rw [List.length_tail] at hpos ⊢
      dsimp only at hpos ⊢
      omega) hcmd hword fun b hb => List.mem_cons_of_mem _ (List.mem_cons_of_mem _ (List.mem_map_of_mem hb))
    refine ⟨st', ?_, fun x hx => (hframe x hx).trans (hsame x hx)⟩
    rw [if_neg hcmd, if_neg hnone, hrun]
    dsimp only [Option.bind_some]
    cases branches.find? fun b => b.name = token (isIn [ascii ' ']) line <;> rfl

/-- Memory, the static pointer of `strtok`, what `printf` writes to, and the state of the kernel. -/
structure Shell (σ κ : Type) where
  mem : Mem
  last : Nat
  out : σ
  kernel : κ

variable {σ κ : Type}

/-- One round of the loop in `shell_start`, with the command that it runs. -/
def shellRound (putchar : σ → Byte → σ) (run : Command → Shell σ κ → Shell σ κ) (lit : List Byte → Nat)
    (input bufSize : Nat) (s : Shell σ κ) (keys : List Byte) : Option (Option Command × Shell σ κ × List Byte) := do
  let st : LineState σ := ⟨s.mem, 0, s.out⟩
  let st ← st.printf putchar (literal "$ ") fun _ => 0#32
  let (st, keys) ← readline putchar input bufSize st keys
  let (cmd, tok) ← shellCommand lit ⟨st.mem, s.last⟩ input
  let s := { s with mem := tok.mem, last := tok.last, out := st.out }
  some (cmd, cmd.elim s fun c => run c s, keys)

def shellRun (putchar : σ → Byte → σ) (run : Command → Shell σ κ → Shell σ κ) (lit : List Byte → Nat)
    (input bufSize : Nat) : Nat → Shell σ κ → List Byte → Option (List Command × Shell σ κ × List Byte)
  | 0, s, keys => some ([], s, keys)
  | n + 1, s, keys => do
      let (cmd, s, keys) ← shellRound putchar run lit input bufSize s keys
      let (cmds, s, keys) ← shellRun putchar run lit input bufSize n s keys
      some (cmd.toList ++ cmds, s, keys)

/-- The lines that characters type one after the other, and the characters behind them. -/
def typedLines (room : Nat) : Nat → List Byte → Option (List (List Byte) × List Byte)
  | 0, keys => some ([], keys)
  | n + 1, keys => do
      let t ← typeLine room [] keys
      let (lines, keys) ← typedLines room n t.rest
      some (t.text :: lines, keys)

variable {putchar : σ → Byte → σ} {run : Command → Shell σ κ → Shell σ κ}

theorem shellRound_spec (hinput : 0 < input) (hend : input + room < 2 ^ 32)
    (hrun : ∀ c s, Literals s.mem lit input room → Literals (run c s).mem lit input room)
    {s : Shell σ κ} (hlit : Literals s.mem lit input room) {keys : List Byte} {t : TypedLine}
    (ht : typeLine room [] keys = some t) :
    ∃ s', shellRound putchar run lit input (room + 1) s keys = some (parseLine t.text, s', t.rest) ∧
      Literals s'.mem lit input room := by
  have hprompt : ∀ m : Mem, formatText m (literal "$ ") (fun _ => 0#32) = some (literal "$ ") := fun _ => rfl
  have hprint := @printf_text _ putchar ⟨s.mem, 0, s.out⟩ _ _ _ (hprompt s.mem) (by decide)
  obtain ⟨m', hread, hstring, hframe⟩ := @readline_spec _ putchar input room hinput hend keys s.mem []
    ((literal "$ ").foldl putchar s.out) t (fun i c hc => absurd hc (Option.some_ne_none c).symm) (Nat.zero_le room)
    (fun d hd => absurd hd List.not_mem_nil) ht
  rw [List.length_nil] at hread
  have hlen := (typeLine_spec (show [].length ≤ room from Nat.zero_le room)
    (fun d hd => absurd hd List.not_mem_nil) ht).1
  have hlit' := hlit.congr hframe
  obtain ⟨tok, hcommand, hsame⟩ :=
    @shellCommand_spec m' lit input room t.text s.last (Nat.ne_of_gt hinput) hstring hlen hlit'
  have hlit'' : Literals tok.mem lit input room := hlit'.congr hsame
  let s₁ : Shell σ κ :=
    { s with mem := tok.mem, last := tok.last, out := t.echo.foldl putchar ((literal "$ ").foldl putchar s.out) }
  refine ⟨(parseLine t.text).elim s₁ fun c => run c s₁, ?_, ?_⟩
  · rw [shellRound]
    dsimp only
    rw [hprint]
    dsimp only [Option.bind_eq_bind, Option.bind_some]
    rw [hread]
    dsimp only [Option.bind_some]
    rw [hcommand]
    rfl
  · cases parseLine t.text with
    | none => exact hlit''
    | some c => exact hrun c s₁ hlit''

/-- Whatever is typed, and whatever the commands do as long as they leave the literals alone,
the shell runs exactly the commands that the lines say, in order. -/
theorem shell_runs_lines (hinput : 0 < input) (hend : input + room < 2 ^ 32)
    (hrun : ∀ c s, Literals s.mem lit input room → Literals (run c s).mem lit input room) {n : Nat} :
    ∀ {s : Shell σ κ} {keys rest : List Byte} {lines : List (List Byte)}, Literals s.mem lit input room →
      typedLines room n keys = some (lines, rest) →
      ∃ s', shellRun putchar run lit input (room + 1) n s keys = some (lines.filterMap parseLine, s', rest) := by
  induction n with
  | zero =>
      intro s keys rest lines _ h
      obtain ⟨rfl, rfl⟩ := Prod.mk.inj (Option.some.inj h)
      exact ⟨s, rfl⟩
  | succ n ih =>
      intro s keys rest lines hlit h
      rw [typedLines] at h
      obtain ⟨t, ht, h⟩ := Option.bind_eq_some_iff.mp h
      obtain ⟨⟨lines', keys'⟩, hmore, h⟩ := Option.bind_eq_some_iff.mp h
      obtain ⟨rfl, rfl⟩ := Prod.mk.inj (Option.some.inj h)
      obtain ⟨s₁, hround, hlit₁⟩ := @shellRound_spec lit input room _ _ putchar run hinput hend hrun s hlit keys t ht
      obtain ⟨s', hruns⟩ := ih hlit₁ hmore
      refine ⟨s', ?_⟩
      rw [shellRun, hround]
      dsimp only [Option.bind_eq_bind, Option.bind_some]
      rw [hruns]
      cases hcommand : parseLine t.text with
      | none => rw [List.filterMap_cons_none hcommand]; rfl
      | some c => rw [List.filterMap_cons_some hcommand]; rfl

def poolBytes (strings : List (List Byte)) : List Byte := strings.flatMap (· ++ [0#8])

def poolAddress (base : Nat) : List (List Byte) → List Byte → Nat
  | [], _ => base
  | t :: strings, s => if s = t then base else poolAddress (base + t.length + 1) strings s

theorem pool_spec {strings : List (List Byte)} (hnul : ∀ t ∈ strings, ∀ c ∈ t, c ≠ 0#8) :
    ∀ {m : Mem} {base : Nat},
    base + (poolBytes strings).length ≤ 2 ^ 32 → ∀ s ∈ strings,
      CString (Emit.place m base (poolBytes strings)) (poolAddress base strings s) s ∧
        base ≤ poolAddress base strings s ∧
        poolAddress base strings s + s.length < base + (poolBytes strings).length := by
  induction strings with
  | nil => exact fun _ s hs => absurd hs List.not_mem_nil
  | cons t strings ih =>
      intro m base hend s hs
      have hbytes : poolBytes (t :: strings) = (t ++ [0#8]) ++ poolBytes strings := List.flatMap_cons
      have hone : (t ++ [0#8]).length = t.length + 1 := by rw [List.length_append, List.length_singleton]
      rw [hbytes, List.length_append, hone] at hend ⊢
      rw [Emit.place_append, hone, poolAddress]
      by_cases hst : s = t
      · subst hst
        rw [if_pos rfl]
        refine ⟨(CString.place m (hnul s hs) (by omega)).congr fun x hlo hhi => ?_, le_rfl, by omega⟩
        rw [Emit.place_apply, dif_neg (by omega)]
      · rw [if_neg hst]
        have hrest := @ih (fun t' ht' => hnul t' (List.mem_cons_of_mem t ht')) (Emit.place m base (t ++ [0#8]))
          (base + t.length + 1) (by omega) s ((List.mem_cons.mp hs).resolve_left hst)
        rw [← Nat.add_assoc]
        exact ⟨hrest.1, by omega, by omega⟩

theorem pool_literals {base : Nat} (hbase : 0 < base) (hend : base + (poolBytes literals).length ≤ input)
    (hinput : input ≤ 2 ^ 32) (room : Nat) :
    Literals (Emit.place m base (poolBytes literals)) (poolAddress base literals) input room := by
  have hall : literals.all (fun t => t.all (· != 0#8)) = true := by rfl
  have hnul : ∀ t ∈ literals, ∀ c ∈ t, c ≠ 0#8 := fun t ht c hc =>
    bne_iff_ne.mp (List.all_eq_true.mp (List.all_eq_true.mp hall t ht) c hc)
  intro s hs
  obtain ⟨hstring, hlo, hhi⟩ := @pool_spec literals hnul m base (by omega) s hs
  exact ⟨by omega, hstring, .inl (by omega)⟩

def sayOnly (c : Command) (s : Shell (List Byte) Unit) : Shell (List Byte) Unit :=
  match c with
  | .echo (some arg) => { s with out := s.out ++ arg ++ [ascii '\n'] }
  | .usage message => { s with out := s.out ++ message }
  | _ => s

theorem shell_runs_lines_two : ∃ s', shellRun (fun out c => out ++ [c]) sayOnly
    (poolAddress 4096 literals) 0x100000 256 2
      ⟨Emit.place (fun _ => 0#8) 4096 (poolBytes literals), 0, [], ()⟩ (literal "echo  hi\nkfree\r") =
    some ([.echo (some (literal " hi")), .usage (literal "Usage: kfree <hex_ptr>\n")], s', []) := by
  have hcommands : [literal "echo  hi", literal "kfree"].filterMap parseLine =
      [.echo (some (literal " hi")), .usage (literal "Usage: kfree <hex_ptr>\n")] := by rfl
  have hlength : (poolBytes literals).length = 221 := by
    rw [poolBytes, List.length_flatMap]
    rfl
  have hpool : Literals (Emit.place (fun _ => 0#8) 4096 (poolBytes literals))
      (poolAddress 4096 literals) 0x100000 255 :=
    pool_literals (by decide) (hlength.symm ▸ by decide) (by decide) 255
  have hsay : ∀ (c : Command) (s : Shell (List Byte) Unit),
    Literals s.mem (poolAddress 4096 literals) 0x100000 255 →
      Literals (sayOnly c s).mem (poolAddress 4096 literals) 0x100000 255 := by
    intro c s h
    have hmem : (sayOnly c s).mem = s.mem := by
      unfold sayOnly
      split <;> rfl
    rwa [hmem]
  have hlines : typedLines 255 2 (literal "echo  hi\nkfree\r") = some ([literal "echo  hi", literal "kfree"], []) := by
    rfl
  rw [← hcommands]
  exact shell_runs_lines (by decide) (by decide) hsay hpool hlines

end Frostix.Misc
