import Frostix.Libc.Strings
import Frostix.Tty.Page

/-!
The line editor of the shell (`shell.c`). It takes the characters of `ps2_get_char` one by one,
keeps the line in a buffer and echoes it with `printf`. The characters are given as a list; when
they run out, the shell waits. -/
namespace Frostix.Misc

open ByteMemory Machine32 Libc Libc.Printf Tty Drivers Raster

/-- Memory, the index `i`, and what `printf` has written to. -/
structure LineState (σ : Type) where
  mem : Mem
  i : Nat
  out : σ

variable {σ : Type}

def LineState.printf (putchar : σ → Byte → σ) (st : LineState σ) (format : List Byte) (va : VaList) :
    Option (LineState σ) :=
  (vprintf putchar st.mem format va st.out).map fun r => { st with out := r.1 }

/-- `c >= ' ' && c <= '~'`; a `char` is signed. -/
def IsGraph (c : Byte) : Prop := 32 ≤ c.toInt ∧ c.toInt ≤ 126

instance (c : Byte) : Decidable (IsGraph c) := inferInstanceAs (Decidable (_ ∧ _))

def isEnter (c : Byte) : Bool := c == ascii '\n' || c == ascii '\r'

/-- The body of the loop: what a character does, and whether the function returns. -/
def readlineKey (putchar : σ → Byte → σ) (buf : Nat) (st : LineState σ) (c : Byte) :
    Option (LineState σ × Bool) :=
  if isEnter c then do
    let st := { st with mem := store8 st.mem (wrap (buf + st.i)) 0#8 }
    let st ← st.printf putchar [ascii '\n'] fun _ => 0#32
    some (st, true)
  else if c = 8#8 then
    if 0 < st.i then do
      let st := { st with i := st.i - 1 }
      let st ← st.printf putchar [8#8, ascii ' ', 8#8] fun _ => 0#32
      some (st, false)
    else some (st, false)
  else if IsGraph c then do
    let st := { st with mem := store8 st.mem (wrap (buf + st.i)) c, i := wrap (st.i + 1) }
    let st ← st.printf putchar [ascii '%', ascii 'c'] fun _ => c.signExtend 32
    some (st, false)
  else some (st, false)

/-- `readline` from some round on, with the characters that it has not taken. -/
def readline (putchar : σ → Byte → σ) (buf bufSize : Nat) :
    LineState σ → List Byte → Option (LineState σ × List Byte)
  | st, [] =>
      if st.i < wsub bufSize 1 then none
      else some ({ st with mem := store8 st.mem (wrap (buf + st.i)) 0#8 }, [])
  | st, c :: keys =>
      if st.i < wsub bufSize 1 then do
        let (st, returns) ← readlineKey putchar buf st c
        if returns then some (st, keys) else readline putchar buf bufSize st keys
      else some ({ st with mem := store8 st.mem (wrap (buf + st.i)) 0#8 }, c :: keys)

def typeKey (line : List Byte) (c : Byte) : List Byte :=
  if c = 8#8 then line.dropLast else if IsGraph c then line ++ [c] else line

def echoKey (line : List Byte) (c : Byte) : List Byte :=
  if isEnter c then [ascii '\n']
  else if c = 8#8 then if line = [] then [] else [8#8, ascii ' ', 8#8]
  else if IsGraph c then [c] else []

/-- The line, whether it was entered or has filled its room, what was shown, and the characters
behind it. -/
structure TypedLine where
  text : List Byte
  entered : Bool
  echo : List Byte
  rest : List Byte

def typeLine (room : Nat) (line : List Byte) : List Byte → Option TypedLine
  | [] => if line.length < room then none else some ⟨line, false, [], []⟩
  | c :: keys =>
      if line.length < room then
        if isEnter c then some ⟨line, true, echoKey line c, keys⟩
        else (typeLine room (typeKey line c) keys).map fun t => { t with echo := echoKey line c ++ t.echo }
      else some ⟨line, false, [], c :: keys⟩

theorem isGraph_ne_nul {c : Byte} (h : IsGraph c) : c ≠ 0#8 := by
  rintro rfl
  exact absurd h (by decide)

theorem graph_typeKey {line : List Byte} (h : ∀ d ∈ line, IsGraph d) (c : Byte) :
    ∀ d ∈ typeKey line c, IsGraph d := by
  unfold typeKey
  split_ifs with hback hc
  · exact fun d hd => h d (List.dropLast_subset line hd)
  · intro d hd
    rcases List.mem_append.mp hd with hd | hd
    · exact h d hd
    · exact List.mem_singleton.mp hd ▸ hc
  · exact h

theorem typeKey_length_le {room : Nat} {line : List Byte} (h : line.length < room) (c : Byte) :
    (typeKey line c).length ≤ room := by
  unfold typeKey
  split_ifs
  · rw [List.length_dropLast]
    omega
  · rw [List.length_append, List.length_singleton]
    exact h
  · exact h.le

theorem typeLine_spec {room : Nat} {keys : List Byte} : ∀ {line : List Byte} {t : TypedLine},
    line.length ≤ room → (∀ d ∈ line, IsGraph d) → typeLine room line keys = some t →
    t.text.length ≤ room ∧ (t.entered = false → t.text.length = room) ∧ ∀ d ∈ t.text, IsGraph d := by
  induction keys with
  | nil =>
      intro line t hlen hline ht
      rw [typeLine] at ht
      split_ifs at ht with hroom
      obtain rfl := Option.some.inj ht
      exact ⟨hlen, fun _ => Nat.le_antisymm hlen (Nat.not_lt.mp hroom), hline⟩
  | cons c keys ih =>
      intro line t hlen hline ht
      rw [typeLine] at ht
      split_ifs at ht with hroom henter
      · obtain rfl := Option.some.inj ht
        exact ⟨hlen, fun h => Bool.noConfusion h, hline⟩
      · obtain ⟨t', ht', rfl⟩ := Option.map_eq_some_iff.mp ht
        obtain ⟨hle, hfull, hgraph⟩ := ih (typeKey_length_le hroom c) (graph_typeKey hline c) ht'
        exact ⟨hle, hfull, hgraph⟩
      · obtain rfl := Option.some.inj ht
        exact ⟨hlen, fun _ => Nat.le_antisymm hlen (Nat.not_lt.mp hroom), hline⟩

variable {putchar : σ → Byte → σ} {buf room : Nat} {m : Mem}

/-- The line stands at the start of the buffer; what follows it is left from earlier. -/
def Holds (m : Mem) (a : Nat) (text : List Byte) : Prop := ∀ i c, text[i]? = some c → m (a + i) = c

theorem Holds.store {text : List Byte} (h : Holds m buf text) (c : Byte) {i : Nat} (hi : text.length ≤ i) :
    Holds (store8 m (buf + i) c) buf text := by
  intro j d hd
  have hj : j < text.length := (List.getElem?_eq_some_iff.mp hd).1
  rw [store8, if_neg (by omega)]
  exact h j d hd

theorem Holds.push {text : List Byte} (h : Holds m buf text) (c : Byte) :
    Holds (store8 m (buf + text.length) c) buf (text ++ [c]) := by
  intro j d hd
  rcases Nat.lt_trichotomy j text.length with hlt | rfl | hgt
  · rw [List.getElem?_append_left hlt] at hd
    exact h.store c le_rfl j d hd
  · rw [List.getElem?_append_right le_rfl, Nat.sub_self] at hd
    rw [store8, if_pos rfl]
    exact Option.some.inj hd
  · rw [List.getElem?_eq_none (by rw [List.length_append, List.length_singleton]; omega)] at hd
    exact absurd hd (Option.some_ne_none d).symm

theorem Holds.dropLast {text : List Byte} (h : Holds m buf text) : Holds m buf text.dropLast := by
  intro j d hd
  rw [List.getElem?_dropLast] at hd
  split_ifs at hd
  exact h j d hd

theorem Holds.cstring {text : List Byte} (hnul : ∀ c ∈ text, c ≠ 0#8) : ∀ {a : Nat}, Holds m a text →
    m (a + text.length) = 0#8 → a + text.length < 2 ^ 32 → CString m a text := by
  induction text with
  | nil => exact fun _ hend hlt => ⟨hlt, hend⟩
  | cons c text ih =>
      intro a h hend hlt
      rw [List.length_cons] at hend hlt
      refine ⟨h 0 c rfl, hnul c List.mem_cons_self,
        ih (fun d hd => hnul d (List.mem_cons_of_mem c hd)) ?_ ?_ (by omega)⟩
      · intro i d hd
        rw [Nat.add_assoc, Nat.add_comm 1]
        exact h (i + 1) d hd
      · rw [Nat.add_assoc, Nat.add_comm 1]
        exact hend

/-- `printf` of text without directives and NULs. -/
theorem printf_text (st : LineState σ) {format text : List Byte} {va : VaList}
    (htext : formatText st.mem format va = some text) (hnul : ∀ c ∈ text, c ≠ 0#8) :
    st.printf putchar format va = some { st with out := text.foldl putchar st.out } := by
  have hfilter : text.filter (· != 0#8) = text := List.filter_eq_self.mpr fun c hc => bne_iff_ne.mpr (hnul c hc)
  rw [LineState.printf, vprintf_eq, htext, Option.map_some, Option.map_some, hfilter]

theorem readlineKey_enter {line : List Byte} {out : σ} (hend : buf + line.length < 2 ^ 32) {c : Byte}
    (hc : isEnter c = true) :
    readlineKey putchar buf ⟨m, line.length, out⟩ c =
      some (⟨store8 m (buf + line.length) 0#8, line.length, (echoKey line c).foldl putchar out⟩, true) := by
  have hnewline : ∀ m : Mem, formatText m [ascii '\n'] (fun _ => 0#32) = some [ascii '\n'] := fun _ => rfl
  unfold readlineKey echoKey
  dsimp only
  rw [if_pos hc, if_pos hc, wrap_of_lt hend, printf_text _ (hnewline _) (by decide)]
  rfl

/-- A character inside the line: the buffer holds what it makes of the line, and it is echoed. -/
theorem readlineKey_edit {line : List Byte} {out : σ} (h : Holds m buf line) (hlen : line.length < room)
    (hend : buf + room < 2 ^ 32) {c : Byte} (hc : isEnter c = false) :
    ∃ m', readlineKey putchar buf ⟨m, line.length, out⟩ c =
        some (⟨m', (typeKey line c).length, (echoKey line c).foldl putchar out⟩, false) ∧
      Holds m' buf (typeKey line c) ∧ ∀ x, x < buf ∨ buf + room < x → m' x = m x := by
  unfold readlineKey typeKey echoKey
  rw [if_neg (Bool.eq_false_iff.mp hc), if_neg (Bool.eq_false_iff.mp hc)]
  by_cases hback : c = 8#8
  · rw [if_pos hback, if_pos hback, if_pos hback]
    refine ⟨m, ?_, h.dropLast, fun _ _ => rfl⟩
    have herase : ∀ m : Mem, formatText m [8#8, ascii ' ', 8#8] (fun _ => 0#32) = some [8#8, ascii ' ', 8#8] :=
      fun _ => rfl
    rw [List.length_dropLast]
    by_cases hempty : line = []
    · rw [if_pos hempty, hempty]
      rfl
    · dsimp only
      rw [if_pos (List.length_pos_iff.mpr hempty), if_neg hempty, printf_text _ (herase _) (by decide)]
      rfl
  · rw [if_neg hback, if_neg hback, if_neg hback]
    by_cases hgraph : IsGraph c
    · rw [if_pos hgraph, if_pos hgraph, if_pos hgraph]
      refine ⟨store8 m (buf + line.length) c, ?_, h.push c, fun x hx => by rw [store8, if_neg (by omega)]⟩
      have hchar : ∀ m : Mem, formatText m [ascii '%', ascii 'c'] (fun _ => c.signExtend 32) = some [c] := by
        intro m
        have hword : (c.signExtend 32).setWidth 8 = c := by
          ext i hi
          rw [BitVec.getElem_setWidth, BitVec.getLsbD_signExtend, if_pos hi, BitVec.getLsbD_eq_getElem hi,
            decide_eq_true (by omega), Bool.true_and]
        exact congrArg (fun d => some [d]) hword
      dsimp only
      rw [wrap_of_lt (by omega), wrap_of_lt (by omega), printf_text _ (hchar _) fun d hd =>
        List.mem_singleton.mp hd ▸ isGraph_ne_nul hgraph, List.length_append]
      rfl
    · rw [if_neg hgraph, if_neg hgraph, if_neg hgraph]
      exact ⟨m, rfl, h, fun _ _ => rfl⟩

/-- The line that is typed ends up in the buffer as a string, and nothing outside it changes. -/
theorem readline_spec (hbuf : 0 < buf) (hroom : buf + room < 2 ^ 32) {keys : List Byte} :
    ∀ {m : Mem} {line : List Byte} {out : σ} {t : TypedLine}, Holds m buf line → line.length ≤ room →
    (∀ d ∈ line, IsGraph d) → typeLine room line keys = some t →
    ∃ m', readline putchar buf (room + 1) ⟨m, line.length, out⟩ keys =
        some (⟨m', t.text.length, t.echo.foldl putchar out⟩, t.rest) ∧
      CString m' buf t.text ∧ ∀ x, x < buf ∨ buf + room < x → m' x = m x := by
  have hlimit : wsub (room + 1) 1 = room := by
    rw [wsub_of_le (by omega) (by omega)]
    omega
  have hfinish : ∀ {m : Mem} {line : List Byte}, Holds m buf line → line.length ≤ room → (∀ d ∈ line, IsGraph d) →
      CString (store8 m (buf + line.length) 0#8) buf line ∧
        ∀ x, x < buf ∨ buf + room < x → store8 m (buf + line.length) 0#8 x = m x := by
    intro m line h hlen hgraph
    refine ⟨Holds.cstring (fun c hc => isGraph_ne_nul (hgraph c hc)) (h.store 0#8 le_rfl) ?_ (by omega),
      fun x hx => ?_⟩
    · rw [store8, if_pos rfl]
    · rw [store8, if_neg (by omega)]
  induction keys with
  | nil =>
      intro m line out t h hlen hgraph ht
      rw [typeLine] at ht
      split_ifs at ht with hfull
      obtain rfl := Option.some.inj ht
      obtain ⟨hstring, hframe⟩ := hfinish h hlen hgraph
      refine ⟨_, ?_, hstring, hframe⟩
      dsimp only [readline]
      rw [hlimit, if_neg hfull, wrap_of_lt (by omega)]
      rfl
  | cons c keys ih =>
      intro m line out t h hlen hgraph ht
      rw [typeLine] at ht
      rw [readline, hlimit]
      obtain ⟨hstring, hframe⟩ := hfinish h hlen hgraph
      by_cases hleft : line.length < room
      · rw [if_pos hleft] at ht ⊢
        cases henter : isEnter c with
        | true =>
            rw [if_pos henter] at ht
            obtain rfl := Option.some.inj ht
            refine ⟨_, ?_, hstring, hframe⟩
            rw [readlineKey_enter (by omega) henter]
            rfl
        | false =>
            rw [if_neg (Bool.eq_false_iff.mp henter)] at ht
            obtain ⟨t', ht', rfl⟩ := Option.map_eq_some_iff.mp ht
            obtain ⟨m₁, hkey, hholds, hsame⟩ := @readlineKey_edit _ putchar _ _ _ _ out h hleft hroom _ henter
            obtain ⟨m', hrun, hstring', hframe'⟩ :=
              ih hholds (typeKey_length_le hleft c) (graph_typeKey hgraph c) ht'
            refine ⟨m', ?_, hstring', fun x hx => (hframe' x hx).trans (hsame x hx)⟩
            rw [hkey]
            dsimp only [Option.bind_eq_bind, Option.bind_some]
            rw [if_neg Bool.false_ne_true, hrun, List.foldl_append]
      · rw [if_neg hleft] at ht ⊢
        obtain rfl := Option.some.inj ht
        refine ⟨_, ?_, hstring, hframe⟩
        dsimp only
        rw [wrap_of_lt (by omega)]
        rfl

variable {dev : VbeDevice} {font : Font} {con : Console} {rows cols : Nat}

theorem isGraph_ne_newline {c : Byte} (h : IsGraph c) : c ≠ ascii '\n' := by
  rintro rfl
  exact absurd h (by decide)

theorem extent_feed {p : Page} (hshort : p.current.length < cols) {c : Byte} (hc : IsGraph c) :
    (p.feed rows cols c).lines.length * cols + (p.feed rows cols c).current.length =
        p.lines.length * cols + p.current.length + 1 ∧ (p.feed rows cols c).current.length < cols := by
  have hnl := isGraph_ne_newline hc
  have hwritten : (p.written c).length = p.current.length + 1 := by
    rw [Page.written, if_neg hnl, List.length_append, List.length_singleton]
  unfold Page.feed
  split_ifs with hends
  · have hfull := hends.resolve_left hnl
    refine ⟨?_, Nat.zero_lt_of_lt hshort⟩
    rw [List.length_append, List.length_singleton, List.length_nil, Nat.add_mul, Nat.one_mul]
    omega
  · have hroom := (not_or.mp hends).2
    refine ⟨?_, ?_⟩
    · rw [hwritten, Nat.add_assoc]
    · rw [hwritten]
      omega

theorem extent_line {p : Page} (hshort : p.current.length < cols) (line : List Byte) : (∀ d ∈ line, IsGraph d) →
    (line.foldl (Page.feed rows cols) p).lines.length * cols + (line.foldl (Page.feed rows cols) p).current.length =
        p.lines.length * cols + p.current.length + line.length ∧
      (line.foldl (Page.feed rows cols) p).current.length < cols := by
  induction line using List.reverseRecOn with
  | nil => exact fun _ => ⟨rfl, hshort⟩
  | append_singleton line c ih =>
      intro hgraph
      obtain ⟨hextent, hcurrent⟩ := ih fun d hd => hgraph d (List.mem_append_left [c] hd)
      have hlast := hgraph c (List.mem_append_right line List.mem_cons_self)
      obtain ⟨hnext, hcurrent'⟩ := @extent_feed rows cols _ hcurrent c hlast
      rw [List.foldl_append, List.foldl_cons, List.foldl_nil, hnext, hextent, List.length_append,
        List.length_singleton]
      exact ⟨by omega, hcurrent'⟩

theorem feed_shift_eq {q : Page} {top : Nat} {c : Byte} (h : q.Ends cols c → q.lines.length + 2 ≤ top + rows) :
    (q.shift top).feed rows cols c = (q.feed rows cols c).shift top := by
  rw [Page.feed_shift]
  congr 1
  unfold Page.feed
  by_cases hends : q.Ends cols c
  · have hends' : (q.shift top).Ends cols c := hends
    have hstay := h hends
    rw [if_pos hends']
    show max top (q.lines.length + 2 - rows) = top
    omega
  · have hends' : ¬(q.shift top).Ends cols c := hends
    rw [if_neg hends']
    rfl

theorem lines_le_foldl {p : Page} (text : List Byte) :
    p.lines.length ≤ (text.foldl (Page.feed rows cols) p).lines.length := by
  induction text using List.reverseRecOn with
  | nil => exact le_rfl
  | append_singleton text c ih =>
      rw [List.foldl_append, List.foldl_cons, List.foldl_nil]
      refine ih.trans ?_
      unfold Page.feed
      split_ifs
      · rw [List.length_append]
        exact Nat.le_add_right _ _
      · exact le_rfl

/-- The page with the line that is being typed, and where the screen stands. -/
def typedPage (rows cols : Nat) (p : Page) (line : List Byte) (top : Nat) : Page :=
  (line.foldl (Page.feed rows cols) p).shift top

/-- The screen shows the line, and its first row has not been scrolled away. -/
structure Echoed (dev : VbeDevice) (font : Font) (rows cols : Nat) (p : Page) (line : List Byte) (con : Console)
    (top : Nat) : Prop where
  page : PageAt dev font con (typedPage rows cols p line top)
  visible : con.cursorVisible = true
  maxRows : con.term.maxRows.toNat = rows
  maxCols : con.term.maxCols.toNat = cols
  seen : top ≤ p.lines.length

theorem Echoed.after {p : Page} {line line' : List Byte} {top top' : Nat} {con' : Console}
    (h : Echoed dev font rows cols p line con top)
    (hturned : Turned dev font con (typedPage rows cols p line top) con' (typedPage rows cols p line' top'))
    (hseen : top' ≤ p.lines.length) : Echoed dev font rows cols p line' con' top' := by
  obtain ⟨row, col, hterm⟩ := hturned.term
  refine ⟨hturned.page, hturned.visible, ?_, ?_, hseen⟩ <;> rw [hterm]
  · exact h.maxRows
  · exact h.maxCols

theorem Echoed.put {p : Page} {line : List Byte} {top : Nat} (h : Echoed dev font rows cols p line con top)
    {c : Byte} (hc : Printed c) :
    ∃ con' top', terminalPutchar con c = .ok con' ∧
      Turned dev font con (typedPage rows cols p line top) con' (typedPage rows cols p (line ++ [c]) top') ∧
      top' = ((typedPage rows cols p line top).feed rows cols c).top := by
  obtain ⟨con', hrun, hturned⟩ := putchar_page h.page h.visible hc
  rw [h.maxRows, h.maxCols] at hturned
  refine ⟨con', _, hrun, ?_, rfl⟩
  rw [typedPage, Page.feed_shift] at hturned
  rw [typedPage, typedPage, List.foldl_append]
  exact hturned

/-- `\b \b` takes the last character of the line back. -/
theorem Echoed.erase {p : Page} {line : List Byte} {d : Byte} {top : Nat} (hshort : p.current.length < cols)
    (hgraph : ∀ e ∈ line ++ [d], IsGraph e) (h : Echoed dev font rows cols p (line ++ [d]) con top) :
    ∃ con', [8#8, ascii ' ', 8#8].foldlM terminalPutchar con = .ok con' ∧
      Turned dev font con (typedPage rows cols p (line ++ [d]) top) con' (typedPage rows cols p line top) := by
  have hd := isGraph_ne_newline (hgraph d (List.mem_append_right line List.mem_cons_self))
  have hcurrent := (@extent_line rows cols p hshort line fun e he => hgraph e (List.mem_append_left [d] he)).2
  have hseen : top ≤ (line.foldl (Page.feed rows cols) p).lines.length := h.seen.trans (lines_le_foldl line)
  have hrow := h.page.row
  have hbelow := h.page.below
  have hfull := h.page
  have hmaxRows := h.maxRows
  have hmaxCols := h.maxCols
  unfold typedPage at hrow hfull ⊢
  rw [List.foldl_append, List.foldl_cons, List.foldl_nil] at hrow hfull ⊢
  generalize line.foldl (Page.feed rows cols) p = q at *
  -- the screen stays where it is
  have hstay : ∀ e : Byte, e ≠ ascii '\n' → (q.shift top).feed rows cols e = (q.feed rows cols e).shift top := by
    intro e he
    refine feed_shift_eq fun hends => ?_
    have hends' : q.Ends cols d := .inr (hends.resolve_left he)
    have hlines : (q.feed rows cols d).lines.length = q.lines.length + 1 := by
      unfold Page.feed
      rw [if_pos hends', List.length_append, List.length_singleton]
    have hrow' : top + con.term.row.toNat = (q.feed rows cols d).lines.length := hrow
    omega
  have hback : ∀ {con : Console} {e : Byte}, e ≠ ascii '\n' → con.term.maxRows.toNat = rows →
      con.term.maxCols.toNat = cols →
      PageAt dev font con ((q.feed rows cols e).shift top) → con.cursorVisible = true →
      ∃ con', terminalPutchar con 8#8 = .ok con' ∧
        Turned dev font con ((q.feed rows cols e).shift top) con' (q.shift top) := by
    intro con e he hrows hcols hpage hvisible
    have hrun := @backspace_page dev font con (q.shift top) e he
    rw [hrows, hcols, hstay e he] at hrun
    exact hrun hcurrent hpage hvisible hseen
  obtain ⟨con₁, hrun₁, hturned₁⟩ := hback hd hmaxRows hmaxCols hfull h.visible
  obtain ⟨row₁, col₁, hterm₁⟩ := hturned₁.term
  obtain ⟨con₂, hrun₂, hturned₂⟩ := putchar_page hturned₁.page hturned₁.visible
    (show Printed (ascii ' ') by decide)
  have hsize₁ : con₁.term.maxRows.toNat = rows ∧ con₁.term.maxCols.toNat = cols := by
    rw [hterm₁]
    exact ⟨hmaxRows, hmaxCols⟩
  rw [hsize₁.1, hsize₁.2, hstay _ (by decide)] at hturned₂
  obtain ⟨row₂, col₂, hterm₂⟩ := hturned₂.term
  have hsize₂ : con₂.term.maxRows.toNat = rows ∧ con₂.term.maxCols.toNat = cols := by
    rw [hterm₂]
    exact hsize₁
  obtain ⟨con₃, hrun₃, hturned₃⟩ := hback (by decide) hsize₂.1 hsize₂.2 hturned₂.page hturned₂.visible
  refine ⟨con₃, ?_, (hturned₁.trans hturned₂).trans hturned₃⟩
  rw [List.foldlM_cons, hrun₁]
  show [ascii ' ', 8#8].foldlM terminalPutchar con₁ = _
  rw [List.foldlM_cons, hrun₂]
  show [8#8].foldlM terminalPutchar con₂ = _
  rw [List.foldlM_cons, hrun₃]
  rfl

theorem Echoed.top_le {p : Page} {line : List Byte} {c : Byte} {top : Nat} (hshort : p.current.length < cols)
    (hroom : p.current.length + room < cols * rows) (hlen : line.length < room) (hgraph : ∀ d ∈ line, IsGraph d)
    (hc : IsGraph c) (h : Echoed dev font rows cols p line con top) :
    ((typedPage rows cols p line top).feed rows cols c).top ≤ p.lines.length := by
  have hseen := h.seen
  have hrows : rows * cols = cols * rows := Nat.mul_comm rows cols
  obtain ⟨hextent, hcurrent⟩ := @extent_line rows cols p hshort line hgraph
  unfold Page.feed
  split_ifs with hends
  · have hfull : cols ≤ (line.foldl (Page.feed rows cols) p).current.length + 1 :=
      hends.resolve_left (isGraph_ne_newline hc)
    have hlines : (line.foldl (Page.feed rows cols) p).lines.length + 1 < p.lines.length + rows := by
      refine Nat.lt_of_mul_lt_mul_right (a := cols) ?_
      rw [Nat.add_mul, Nat.add_mul, Nat.one_mul, hrows]
      omega
    show max top ((line.foldl (Page.feed rows cols) p).lines.length + 2 - rows) ≤ p.lines.length
    omega
  · exact hseen

theorem Echoed.key {p : Page} {line : List Byte} {top : Nat} (hshort : p.current.length < cols)
    (hroom : p.current.length + room < cols * rows) (hlen : line.length < room) (hgraph : ∀ d ∈ line, IsGraph d)
    (h : Echoed dev font rows cols p line con top) {c : Byte} (hc : isEnter c = false) :
    ∃ con' top', (echoKey line c).foldlM terminalPutchar con = .ok con' ∧
      Turned dev font con (typedPage rows cols p line top) con' (typedPage rows cols p (typeKey line c) top') ∧
      top' ≤ p.lines.length := by
  unfold echoKey typeKey
  rw [if_neg (Bool.eq_false_iff.mp hc)]
  by_cases hback : c = 8#8
  · rw [if_pos hback, if_pos hback]
    rcases List.eq_nil_or_concat line with rfl | ⟨line, d, rfl⟩
    · exact ⟨con, top, rfl, Turned.refl h.page h.visible, h.seen⟩
    · rw [List.concat_eq_append] at h hgraph ⊢
      obtain ⟨con', hrun, hturned⟩ := h.erase hshort hgraph
      rw [if_neg (List.append_ne_nil_of_right_ne_nil _ (List.cons_ne_nil d [])), List.dropLast_concat]
      exact ⟨con', top, hrun, hturned, h.seen⟩
  · rw [if_neg hback, if_neg hback]
    by_cases hgood : IsGraph c
    · rw [if_pos hgood, if_pos hgood]
      obtain ⟨con', top', hrun, hturned, htop⟩ := h.put (.inr hgood.1)
      refine ⟨con', top', ?_, hturned, htop ▸ h.top_le hshort hroom hlen hgraph hgood⟩
      rw [List.foldlM_cons, hrun]
      rfl
    · rw [if_neg hgood, if_neg hgood]
      exact ⟨con, top, rfl, Turned.refl h.page h.visible, h.seen⟩

theorem Echoed.line {p : Page} (hshort : p.current.length < cols) (hroom : p.current.length + room < cols * rows)
    {keys : List Byte} : ∀ {con : Console} {line : List Byte} {top : Nat} {t : TypedLine}, line.length ≤ room →
    (∀ d ∈ line, IsGraph d) → Echoed dev font rows cols p line con top → typeLine room line keys = some t →
    ∃ con' top', t.echo.foldlM terminalPutchar con = .ok con' ∧
      Turned dev font con (typedPage rows cols p line top) con'
        (typedPage rows cols p (t.text ++ if t.entered then [ascii '\n'] else []) top') := by
  have hdone : ∀ {con : Console} {line : List Byte} {top : Nat}, Echoed dev font rows cols p line con top →
      Turned dev font con (typedPage rows cols p line top) con (typedPage rows cols p (line ++ []) top) := by
    intro con line top h
    rw [List.append_nil]
    exact Turned.refl h.page h.visible
  induction keys with
  | nil =>
      intro con line top t hlen hgraph h ht
      rw [typeLine] at ht
      split_ifs at ht
      obtain rfl := Option.some.inj ht
      exact ⟨con, top, rfl, hdone h⟩
  | cons c keys ih =>
      intro con line top t hlen hgraph h ht
      rw [typeLine] at ht
      split_ifs at ht with hleft henter
      · obtain rfl := Option.some.inj ht
        obtain ⟨con', top', hrun, hturned, -⟩ := h.put (c := ascii '\n') (.inl rfl)
        refine ⟨con', top', ?_, hturned⟩
        show (echoKey line c).foldlM terminalPutchar con = _
        rw [echoKey, if_pos henter, List.foldlM_cons, hrun]
        rfl
      · obtain ⟨t', ht', rfl⟩ := Option.map_eq_some_iff.mp ht
        obtain ⟨con₁, top₁, hrun₁, hturned₁, htop₁⟩ :=
          h.key hshort hroom hleft hgraph (Bool.eq_false_iff.mpr henter)
        obtain ⟨con', top', hrun, hturned⟩ :=
          ih (typeKey_length_le hleft c) (graph_typeKey hgraph c) (h.after hturned₁ htop₁) ht'
        refine ⟨con', top', ?_, hturned₁.trans hturned⟩
        rw [List.foldlM_append, hrun₁]
        exact hrun
      · obtain rfl := Option.some.inj ht
        exact ⟨con, top, rfl, hdone h⟩

def misspelt : TypedLine where
  text := ['l', 's'].map ascii
  entered := true
  echo := ['l', 'a'].map ascii ++ [8#8, ascii ' ', 8#8] ++ ['s', '\n'].map ascii
  rest := [ascii 'x']

end Frostix.Misc
