import Frostix.Tar.Items

/-!
The ustar encoding and its decoder. An archive is the concatenation of its entries,
each a header of 512 bytes and its data padded to a multiple of 512, and a zero block.
`tar_find` over the encoding of a list of entries is the search of the list. -/
namespace Frostix.Tar

open Machine32 Libc While

/-- The octal digits of a number, `k` of them, the most significant first. -/
def octalDigits : Nat → Nat → List Byte
  | 0, _ => []
  | k + 1, v => octalDigits k (v / 8) ++ [BitVec.ofNat 8 (48 + v % 8)]

/-- A member of an archive. The fields that the reader does not look at are arbitrary;
a size field ends with a NUL or a space. -/
structure Entry where
  name : List Byte
  /-- the field `prefix` -/
  dir : List Byte
  typeflag : Byte
  data : List Byte
  /-- `mode`, `uid` and `gid` -/
  owner : Vector Byte 24
  sizeEnd : Byte
  /-- `mtime` and `chksum` -/
  stamps : Vector Byte 20
  /-- `linkname` to `devminor` -/
  links : Vector Byte 188
  pad : Vector Byte 12
  name_nul : ∀ c ∈ name, c ≠ 0#8
  name_length : name.length < 100
  dir_nul : ∀ c ∈ dir, c ≠ 0#8
  dir_length : dir.length < 155
  not_long : typeflag ≠ ascii 'L'
  data_length : data.length < 2 ^ 32
  size_ends : sizeEnd = 0#8 ∨ sizeEnd = ascii ' '

def padded (l : List Byte) (width : Nat) : List Byte := l ++ List.replicate (width - l.length) 0#8

def Entry.fullName (e : Entry) : List Byte :=
  if e.dir = [] then e.name else e.dir ++ [ascii '/'] ++ e.name

def Entry.header (e : Entry) : List Byte :=
  padded e.name 100 ++ (e.owner.toList ++ (octalDigits 11 e.data.length ++ (e.sizeEnd ::
    (e.stamps.toList ++ (e.typeflag :: (e.links.toList ++ (padded e.dir 155 ++ e.pad.toList)))))))

def blocks (n : Nat) : Nat := (n + 511) / 512 * 512

def Entry.encode (e : Entry) : List Byte := e.header ++ padded e.data (blocks e.data.length)

def encodeEntries : List Entry → List Byte
  | [] => []
  | e :: rest => e.encode ++ encodeEntries rest

def encodeArchive (entries : List Entry) : List Byte := encodeEntries entries ++ List.replicate 512 0#8

/-- `mem` holds the bytes from an address on. -/
def Placed (mem : Memory) (a : Nat) (l : List Byte) : Prop :=
  ∀ i c, l[i]? = some c → mem (a + i) = some c

def Entry.Named (e : Entry) (path : List Byte) : Prop := isRegular e.typeflag = true ∧ e.fullName = path

theorem Placed.append {mem : Memory} {a : Nat} {l l' : List Byte} (h : Placed mem a (l ++ l')) :
    Placed mem a l ∧ Placed mem (a + l.length) l' := by
  constructor
  · intro i c hc
    have hi : i < l.length := (List.getElem?_eq_some_iff.mp hc).1
    exact h i c (by rw [List.getElem?_append_left hi, hc])
  · intro i c hc
    rw [Nat.add_assoc]
    exact h _ c (by rw [List.getElem?_append_right (by omega), Nat.add_sub_cancel_left, hc])

theorem Placed.cons {mem : Memory} {a : Nat} {c : Byte} {l : List Byte} (h : Placed mem a (c :: l)) :
    mem a = some c ∧ Placed mem (a + 1) l :=
  ⟨h 0 c rfl, (Placed.append (l := [c]) h).2⟩

theorem load_of_lt {mem : Memory} {a : Nat} (h : a < 2 ^ 32) : load mem a = mem a := by
  rw [load, wrap_of_lt h]

theorem readUntil_placed {mem : Memory} {stops : Byte → Bool} {l : List Byte} {a n : Nat}
    (hplaced : Placed mem a l) (hfit : a + l.length < 2 ^ 32) (hgo : ∀ c ∈ l, stops c = false)
    (hn : l.length < n) {t : Byte} (hend : mem (a + l.length) = some t) (ht : stops t = true) :
    readUntil mem stops a n = some l := by
  induction l generalizing a n with
  | nil =>
      obtain ⟨k, rfl⟩ : ∃ k, n = k + 1 := ⟨n - 1, by simp only [List.length_nil] at hn; omega⟩
      simp only [List.length_nil, Nat.add_zero] at hend hfit
      simp [readUntil, load_of_lt hfit, hend, ht]
  | cons c l ih =>
      obtain ⟨k, rfl⟩ : ∃ k, n = k + 1 := ⟨n - 1, by omega⟩
      rw [List.length_cons] at hfit hn hend
      obtain ⟨hc, hrest⟩ := hplaced.cons
      have htail : readUntil mem stops (a + 1) k = some l :=
        ih hrest (by omega) (fun d hd => hgo d (List.mem_cons_of_mem _ hd)) (by omega)
          (by rw [← hend]; congr 1; omega)
      simp [readUntil, load_of_lt (show a < 2 ^ 32 by omega), hc, hgo c List.mem_cons_self, htail]

theorem allZero_placed {mem : Memory} {l : List Byte} {a : Nat} (hplaced : Placed mem a l)
    (hfit : a + l.length ≤ 2 ^ 32) : allZero mem a l.length = some (decide (∀ c ∈ l, c = 0#8)) := by
  induction l generalizing a with
  | nil => simp [allZero]
  | cons c l ih =>
      rw [List.length_cons] at hfit
      obtain ⟨hc, hrest⟩ := hplaced.cons
      rw [List.length_cons, allZero, load_of_lt (show a < 2 ^ 32 by omega), hc, ih hrest (by omega)]
      by_cases hzero : c = 0#8 <;> simp [hzero]

theorem length_padded {l : List Byte} {width : Nat} (h : l.length ≤ width) :
    (padded l width).length = width := by
  simp only [padded, List.length_append, List.length_replicate]
  omega

theorem readUntil_padded {mem : Memory} {l : List Byte} {a n width : Nat}
    (hplaced : Placed mem a (padded l width)) (hfit : a + width ≤ 2 ^ 32) (hnul : ∀ c ∈ l, c ≠ 0#8)
    (hshort : l.length < width) (hn : l.length < n) : readUntil mem isNul a n = some l := by
  obtain ⟨hl, hzeros⟩ := hplaced.append
  have hend : mem (a + l.length) = some 0#8 := by
    have hzero := hzeros 0 0#8 (by simp [List.getElem?_replicate]; omega)
    exact hzero
  exact readUntil_placed hl (by omega) (fun c hc => by simpa [isNul] using hnul c hc) hn hend rfl

theorem digitValue_octal (d : Nat) (h : d < 8) : digitValue (BitVec.ofNat 8 (48 + d)) = some d := by
  interval_cases d <;> rfl

theorem strtoulDigits_append {base : Nat} {l : List Byte} {acc d : Nat} {c : Byte}
    (hl : ∀ b ∈ l, ∃ k < base, digitValue b = some k) (hc : digitValue c = some d) (hd : d < base) :
    strtoulDigits base acc (l ++ [c]) = wrap (strtoulDigits base acc l * base + d) := by
  induction l generalizing acc with
  | nil => simp [strtoulDigits, hc, Nat.not_le.mpr hd]
  | cons b l ih =>
      obtain ⟨k, hk, hb⟩ := hl b List.mem_cons_self
      simp only [List.cons_append, strtoulDigits, hb, Nat.not_le.mpr hk, if_false]
      exact ih fun b' hb' => hl b' (List.mem_cons_of_mem _ hb')

theorem octalDigits_digit {k v : Nat} {c : Byte} (h : c ∈ octalDigits k v) :
    ∃ d < 8, digitValue c = some d ∧ c = BitVec.ofNat 8 (48 + d) := by
  induction k generalizing v with
  | zero => cases h
  | succ k ih =>
      rcases List.mem_append.mp h with h | h
      · exact ih h
      · obtain rfl := List.mem_singleton.mp h
        have hlt := Nat.mod_lt v (show 0 < 8 by decide)
        exact ⟨v % 8, hlt, digitValue_octal _ hlt, rfl⟩

theorem length_octalDigits (k v : Nat) : (octalDigits k v).length = k := by
  induction k generalizing v with
  | zero => rfl
  | succ k ih => simp [octalDigits, ih]

theorem strtoulDigits_octalDigits (k v : Nat) : strtoulDigits 8 0 (octalDigits k v) = wrap (v % 8 ^ k) := by
  induction k generalizing v with
  | zero => simp [octalDigits, strtoulDigits, wrap, Nat.mod_one]
  | succ k ih =>
      have hlt := Nat.mod_lt v (show 0 < 8 by decide)
      rw [octalDigits, strtoulDigits_append _ (digitValue_octal _ hlt) hlt, ih]
      · have hsplit : v % 8 ^ (k + 1) = v / 8 % 8 ^ k * 8 + v % 8 := by
          rw [Nat.pow_succ', Nat.mod_mul]
          ring
        rw [hsplit]
        unfold wrap
        omega
      · intro b hb
        obtain ⟨d, hd, hval, -⟩ := octalDigits_digit hb
        exact ⟨d, hd, hval⟩

theorem octalValue_octalDigits {k : Nat} (hk : 0 < k) (v : Nat) :
    octalValue (octalDigits k v) = wrap (v % 8 ^ k) := by
  have hne : octalDigits k v ≠ [] := by
    intro hnil
    rw [← length_octalDigits k v, hnil] at hk
    exact lt_irrefl _ hk
  obtain ⟨c, rest, hcons⟩ := List.exists_cons_of_ne_nil hne
  obtain ⟨d, hd, -, hc⟩ := octalDigits_digit (hcons ▸ List.mem_cons_self : c ∈ octalDigits k v)
  have hfirst : (c == ascii ' ' || c == ascii '\t' || c == ascii '\n' || c == ascii '\r') = false ∧
      c ≠ ascii '+' := by
    subst hc
    interval_cases d <;> decide
  have hskip : strtoul (octalDigits k v) 8 = strtoulDigits 8 0 (octalDigits k v) := by
    simp [strtoul, hcons, hfirst, detectBase]
  rw [octalValue, if_neg hne, hskip, strtoulDigits_octalDigits]

structure HeaderAt (mem : Memory) (p : Nat) (e : Entry) : Prop where
  name : Placed mem p (padded e.name 100)
  size : Placed mem (p + 124) (octalDigits 11 e.data.length)
  sizeEnd : mem (p + 135) = some e.sizeEnd
  typeflag : mem (p + 156) = some e.typeflag
  dir : Placed mem (p + 345) (padded e.dir 155)

theorem Entry.header_at {mem : Memory} {p : Nat} {e : Entry} (h : Placed mem p e.header) :
    HeaderAt mem p e := by
  obtain ⟨hname, h⟩ := h.append
  rw [length_padded e.name_length.le] at h
  obtain ⟨-, h⟩ := h.append
  rw [Vector.length_toList] at h
  obtain ⟨hsize, h⟩ := h.append
  rw [length_octalDigits] at h
  obtain ⟨hend, h⟩ := h.cons
  obtain ⟨-, h⟩ := h.append
  rw [Vector.length_toList] at h
  obtain ⟨htype, h⟩ := h.cons
  obtain ⟨-, h⟩ := h.append
  rw [Vector.length_toList] at h
  obtain ⟨hdir, -⟩ := h.append
  exact ⟨hname, hsize, hend, htype, hdir⟩

theorem Entry.length_header (e : Entry) : e.header.length = 512 := by
  have hname := length_padded e.name_length.le
  have hdir := length_padded e.dir_length.le
  simp only [Entry.header, List.length_append, List.length_cons, Vector.length_toList,
    length_octalDigits, hname, hdir]

theorem le_blocks (n : Nat) : n ≤ blocks n := by
  unfold blocks
  omega

theorem Entry.length_encode (e : Entry) : e.encode.length = 512 + blocks e.data.length := by
  rw [Entry.encode, List.length_append, e.length_header, length_padded (le_blocks _)]

theorem Entry.header_not_zero {mem : Memory} {p : Nat} {e : Entry} (h : Placed mem p e.header)
    (hfit : p + 512 ≤ 2 ^ 32) : headerIsZero mem p = some false := by
  have hall := allZero_placed h (by rw [e.length_header]; exact hfit)
  rw [e.length_header] at hall
  rw [headerIsZero, hall, Option.some.injEq, decide_eq_false_iff_not]
  intro hzero
  obtain ⟨c, rest, hcons⟩ := List.exists_cons_of_length_pos
    (show 0 < (octalDigits 11 e.data.length).length by rw [length_octalDigits]; decide)
  have hmem : c ∈ octalDigits 11 e.data.length := hcons ▸ List.mem_cons_self
  obtain ⟨d, hd, -, hc⟩ := octalDigits_digit hmem
  have hc0 : c = 0#8 := hzero c (by
    simp only [Entry.header, List.mem_append, List.mem_cons]
    exact Or.inr (Or.inr (Or.inl hmem)))
  subst hc
  interval_cases d <;> exact absurd hc0 (by decide)

theorem HeaderAt.parse_size {mem : Memory} {p : Nat} {e : Entry} (h : HeaderAt mem p e)
    (hfit : p + 512 < 2 ^ 32) : tarParseOctal mem (p + 124) 12 = some e.data.length := by
  have hread : readUntil mem endsField (p + 124) 12 = some (octalDigits 11 e.data.length) := by
    refine readUntil_placed h.size ?_ ?_ ?_ (t := e.sizeEnd) ?_ ?_
    · rw [length_octalDigits]
      omega
    · intro c hc
      obtain ⟨d, hd, -, rfl⟩ := octalDigits_digit hc
      interval_cases d <;> rfl
    · rw [length_octalDigits]
      decide
    · rw [length_octalDigits]
      exact h.sizeEnd
    · rcases e.size_ends with hend | hend <;> rw [hend] <;> rfl
  have hlength := e.data_length
  have hvalue : octalValue (octalDigits 11 e.data.length) = e.data.length := by
    rw [octalValue_octalDigits (by decide), Nat.mod_eq_of_lt (by omega), wrap_of_lt hlength]
  simp [tarParseOctal, hread, hvalue]

theorem HeaderAt.full_name {mem : Memory} {p : Nat} {e : Entry} (h : HeaderAt mem p e)
    (hfit : p + 512 < 2 ^ 32) : buildFullName mem p 256 = some e.fullName := by
  have hnl := e.name_length
  have hdl := e.dir_length
  have hname : ∀ n, e.name.length < n → readUntil mem isNul p n = some e.name :=
    fun n hn => readUntil_padded h.name (by omega) e.name_nul hnl hn
  by_cases hdir : e.dir = []
  · have hfirst : mem (p + 345) = some 0#8 := h.dir 0 0#8 (by simp [padded, hdir])
    simp only [buildFullName, load_of_lt (show p + 345 < 2 ^ 32 by omega), hfirst, Option.bind_eq_bind,
      Option.bind_some, ne_eq, not_true_eq_false, if_false, Entry.fullName, hdir, if_true]
    exact hname 255 (by omega)
  · obtain ⟨c, rest, hcons⟩ := List.exists_cons_of_ne_nil hdir
    have hc : c ≠ 0#8 := e.dir_nul c (hcons ▸ List.mem_cons_self)
    have hfirst : mem (p + 345) = some c := h.dir 0 c (by simp [padded, hcons])
    have hread : readUntil mem isNul (p + 345) 255 = some e.dir :=
      readUntil_padded h.dir (by omega) e.dir_nul hdl (by omega)
    simp only [buildFullName, load_of_lt (show p + 345 < 2 ^ 32 by omega), hfirst, hread, hc,
      Option.bind_eq_bind, Option.bind_some, ne_eq, not_false_eq_true, if_true, Entry.fullName, hdir,
      if_false, if_pos (show e.dir.length + 1 < 256 by omega)]
    rw [hname _ (by simp only [List.length_append, List.length_singleton]; omega)]
    rfl

theorem visit_entry {mem : Memory} {limit p : Nat} {e : Entry} (h : Placed mem p e.header)
    (hlimit : limit < 2 ^ 32) (hroom : p + 512 + blocks e.data.length ≤ limit) :
    visit mem limit p =
      some (.more (.file p e.data.length e.typeflag) (p + 512 + blocks e.data.length)) := by
  have hle := le_blocks e.data.length
  have hat := Entry.header_at h
  have hround : roundUp512 e.data.length = blocks e.data.length := by
    rw [roundUp512, alignUp_of_lt (by unfold blocks at hroom; omega), blocks]
  have hadv : advance limit p e.data.length = some (p + 512 + blocks e.data.length) := by
    simp only [advance, hround]
    rw [wrap_of_lt (show 512 + blocks e.data.length < 2 ^ 32 by omega),
      wrap_of_lt (show p + (512 + blocks e.data.length) < 2 ^ 32 by omega), if_neg (by omega),
      ← Nat.add_assoc]
  simp only [visit, wrap_of_lt (show p + 512 < 2 ^ 32 by omega), if_pos (show p + 512 ≤ limit by omega),
    Entry.header_not_zero h (by omega), hat.parse_size (by omega),
    load_of_lt (show p + 156 < 2 ^ 32 by omega), hat.typeflag, if_neg e.not_long, hadv,
    Option.bind_eq_bind, Option.bind_some, Option.pure_def, Bool.false_eq_true, if_false]

theorem visit_zero_block {mem : Memory} {limit p : Nat} (h : Placed mem p (List.replicate 512 0#8))
    (hlimit : limit < 2 ^ 32) (hroom : p + 512 ≤ limit) : visit mem limit p = some .done := by
  have hzero := allZero_placed h (by rw [List.length_replicate]; omega)
  rw [List.length_replicate] at hzero
  have hhdr : headerIsZero mem p = some true := by
    rw [headerIsZero, hzero, decide_eq_true fun c hc => List.eq_of_mem_replicate hc]
  simp only [visit, wrap_of_lt (show p + 512 < 2 ^ 32 by omega), if_pos hroom, hhdr,
    Option.bind_eq_bind, Option.bind_some, Option.pure_def, if_true]

def itemsAt : Nat → List Entry → List Item
  | _, [] => []
  | p, e :: rest => .file p e.data.length e.typeflag :: itemsAt (p + e.encode.length) rest

theorem encodeArchive_cons (e : Entry) (rest : List Entry) :
    encodeArchive (e :: rest) = e.encode ++ encodeArchive rest := by
  rw [encodeArchive, encodeEntries, List.append_assoc, ← encodeArchive]

theorem encodeArchive_append (before rest : List Entry) :
    encodeArchive (before ++ rest) = encodeEntries before ++ encodeArchive rest := by
  induction before with
  | nil => rfl
  | cons e before ih => rw [List.cons_append, encodeArchive_cons, ih, encodeEntries, List.append_assoc]

theorem items_encodeArchive {mem : Memory} {limit p : Nat} {entries : List Entry}
    (h : Placed mem p (encodeArchive entries)) (hlimit : limit < 2 ^ 32)
    (hroom : p + (encodeArchive entries).length ≤ limit) : Items mem limit p (itemsAt p entries) := by
  induction entries generalizing p with
  | nil =>
      rw [encodeArchive, encodeEntries, List.nil_append, List.length_replicate] at hroom
      exact .done (visit_zero_block h hlimit hroom)
  | cons e rest ih =>
      rw [encodeArchive_cons, List.length_append] at hroom
      rw [encodeArchive_cons] at h
      obtain ⟨he, hrest⟩ := h.append
      have hlen := e.length_encode
      refine .more (visit_entry he.append.1 hlimit (by omega)) ?_
      rw [Nat.add_assoc, ← hlen]
      exact ih hrest (by omega)

/-- The search of the list of entries, with the addresses of their data. -/
def findEntry (path : List Byte) : Nat → List Entry → Option (Nat × Nat)
  | _, [] => none
  | p, e :: rest =>
      if isRegular e.typeflag = true ∧ e.fullName = path then some (p + 512, e.data.length)
      else findEntry path (p + e.encode.length) rest

theorem findIn_itemsAt {mem : Memory} {p : Nat} {entries : List Entry} {path : List Byte}
    (h : Placed mem p (encodeArchive entries)) (hfit : p + (encodeArchive entries).length < 2 ^ 32) :
    findIn mem path [] (itemsAt p entries) = some (findEntry path p entries) := by
  induction entries generalizing p with
  | nil => rfl
  | cons e rest ih =>
      rw [encodeArchive_cons, List.length_append] at hfit
      rw [encodeArchive_cons] at h
      obtain ⟨he, hrest⟩ := h.append
      have hlen := e.length_encode
      have hname : nameOf mem [] p = some e.fullName := by
        rw [nameOf, if_neg (by simp)]
        exact (Entry.header_at he.append.1).full_name (by omega)
      simp only [itemsAt, findIn, findEntry, hname, Option.bind_eq_bind, Option.bind_some,
        ih hrest (by omega), wrap_of_lt (show p + 512 < 2 ^ 32 by omega)]
      split_ifs <;> rfl

/-- `findEntry` finds the first entry that is a regular file of that name. -/
theorem findEntry_append {path : List Byte} {p : Nat} {before : List Entry} {e : Entry}
    {after : List Entry} (hbefore : ∀ e' ∈ before, ¬ e'.Named path) (he : e.Named path) :
    findEntry path p (before ++ e :: after) =
      some (p + (encodeEntries before).length + 512, e.data.length) := by
  induction before generalizing p with
  | nil =>
      have hnamed : isRegular e.typeflag = true ∧ e.fullName = path := he
      rw [List.nil_append, findEntry, if_pos hnamed]
      rfl
  | cons b before ih =>
      have hb : ¬ (isRegular b.typeflag = true ∧ b.fullName = path) := hbefore b List.mem_cons_self
      rw [List.cons_append, findEntry, if_neg hb, ih fun e' he' => hbefore e' (List.mem_cons_of_mem _ he'),
        encodeEntries, List.length_append, Nat.add_assoc p]

theorem findEntry_none {path : List Byte} {p : Nat} {entries : List Entry}
    (h : ∀ e ∈ entries, ¬ e.Named path) : findEntry path p entries = none := by
  induction entries generalizing p with
  | nil => rfl
  | cons e rest ih =>
      have he : ¬ (isRegular e.typeflag = true ∧ e.fullName = path) := h e List.mem_cons_self
      rw [findEntry, if_neg he]
      exact ih fun e' he' => h e' (List.mem_cons_of_mem _ he')

/-- `tar_find` undoes the encoding: for every list of entries and every path it returns
the address and the size of the data of the first regular file of that name, and `NULL`
if there is none. -/
theorem tarFind_encodeArchive {mem : Memory} {archive : Nat} {entries : List Entry}
    (h : Placed mem archive (encodeArchive entries))
    (hfit : archive + (encodeArchive entries).length < 2 ^ 32) (path : List Byte) :
    (∀ before e after, entries = before ++ e :: after → (∀ e' ∈ before, ¬ e'.Named path) →
      e.Named path →
      TarFind mem archive (encodeArchive entries).length path
        (some (archive + (encodeEntries before).length + 512, e.data.length)) ∧
      Placed mem (archive + (encodeEntries before).length + 512) e.data) ∧
    ((∀ e ∈ entries, ¬ e.Named path) →
      TarFind mem archive (encodeArchive entries).length path none) := by
  have hitems := items_encodeArchive h hfit le_rfl
  have hsearch : TarFind mem archive (encodeArchive entries).length path
      (findEntry path archive entries) := by
    rw [TarFind, wrap_of_lt hfit, tarFind_items_iff hitems]
    exact findIn_itemsAt h hfit
  refine ⟨?_, fun hnone => findEntry_none hnone ▸ hsearch⟩
  rintro before e after rfl hbefore he
  rw [findEntry_append hbefore he] at hsearch
  refine ⟨hsearch, ?_⟩
  rw [encodeArchive_append, encodeArchive_cons] at h
  have hdata := h.append.2.append.1.append.2.append.1
  rw [e.length_header] at hdata
  exact hdata

def memoryAt (base : Nat) (l : List Byte) : Memory := fun a => if base ≤ a then l[a - base]? else none

theorem placed_memoryAt (base : Nat) (l : List Byte) : Placed (memoryAt base l) base l := by
  intro i c hc
  rw [memoryAt, if_pos (Nat.le_add_right base i), Nat.add_sub_cancel_left, hc]

/-- The regular file `d/a` with the content `hi`. -/
def demoEntry : Entry where
  name := [ascii 'a']
  dir := [ascii 'd']
  typeflag := ascii '0'
  data := "hi".toList.map ascii
  owner := Vector.replicate 24 0#8
  sizeEnd := 0#8
  stamps := Vector.replicate 20 0#8
  links := Vector.replicate 188 0#8
  pad := Vector.replicate 12 0#8
  name_nul := by decide
  name_length := by decide
  dir_nul := by decide
  dir_length := by decide
  not_long := by decide
  data_length := by decide
  size_ends := Or.inl rfl

/-- The file `d/b` with the content `abc`. -/
def otherEntry : Entry :=
  { demoEntry with
    name := [ascii 'b'], data := "abc".toList.map ascii, name_nul := by decide, name_length := by decide,
    data_length := by decide }

/-- The second of two files is found behind the first. -/
theorem tarFind_encodeArchive_demo :
    ¬ otherEntry.Named ("d/a".toList.map ascii) ∧ demoEntry.Named ("d/a".toList.map ascii) ∧
      TarFind (memoryAt 4096 (encodeArchive [otherEntry, demoEntry])) 4096
        (encodeArchive [otherEntry, demoEntry]).length ("d/a".toList.map ascii) (some (5632, 2)) := by
  have hother : ¬ otherEntry.Named ("d/a".toList.map ascii) := by
    unfold Entry.Named
    decide
  have hnamed : demoEntry.Named ("d/a".toList.map ascii) := by
    unfold Entry.Named
    decide
  have hfirst : (encodeEntries [otherEntry]).length = 1024 := by
    rw [encodeEntries, List.length_append, otherEntry.length_encode]
    rfl
  have hlen : (encodeArchive [otherEntry, demoEntry]).length = 2560 := by
    rw [encodeArchive_cons, List.length_append, otherEntry.length_encode, encodeArchive_cons, List.length_append,
      demoEntry.length_encode, encodeArchive, encodeEntries, List.nil_append, List.length_replicate]
    rfl
  have hfind := tarFind_encodeArchive (placed_memoryAt 4096 (encodeArchive [otherEntry, demoEntry]))
    (by rw [hlen]; decide) ("d/a".toList.map ascii)
  have hsecond := (hfind.1 [otherEntry] demoEntry [] rfl (by simpa using hother) hnamed).1
  rw [hfirst] at hsecond
  exact ⟨hother, hnamed, hsecond⟩

end Frostix.Tar
