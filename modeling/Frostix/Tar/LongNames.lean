import Frostix.Tar.Items

/-!
When `tar_find` and `tar_list` agree. Both take the name of the file behind an `L`
entry from that entry; `tar_list` then forgets it, `tar_find` keeps it for every later
file up to the next `L` entry. The two agree about a path exactly if, up to the first
file of that name, no kept long name makes a difference. -/
namespace Frostix.Tar

open Machine32 Libc While

/-- The long name at a point of the walk: there is none, it waits for its file, or its
file has been passed. -/
inductive Pending where
  | none
  | fresh (name : List Byte) (h : name ≠ [])
  | stale (name : List Byte) (h : name ≠ [])

def Pending.ofLong (name : List Byte) : Pending := if h : name = [] then .none else .fresh name h

/-- What `tar_list` holds. -/
def Pending.listed : Pending → List Byte
  | .fresh name _ => name
  | _ => []

/-- What `tar_find` holds. -/
def Pending.kept : Pending → List Byte
  | .none => []
  | .fresh name _ => name
  | .stale name _ => name

def Pending.used : Pending → Pending
  | .fresh name h => .stale name h
  | pending => pending

/-- Up to the first regular file that is called `path`, every regular file met with a
stale long name is called `path` by its own header if and only if the stale name is
`path`. -/
def Undisturbed (mem : Memory) (path : List Byte) : Pending → List Item → Prop
  | _, [] => True
  | _, .long name :: rest => Undisturbed mem path (.ofLong name) rest
  | pending, .file hdr _ typeflag :: rest =>
      (isRegular typeflag = true →
        (nameOf mem pending.listed hdr = some path ↔ nameOf mem pending.kept hdr = some path)) ∧
      ((isRegular typeflag = true ∧ nameOf mem pending.listed hdr = some path) ∨
        Undisturbed mem path pending.used rest)

/-- The first regular file among the lines that is printed under `path`: the address of
its data and its size. -/
def firstNamed (path : List Byte) (lines : List Line) : Option (Nat × Nat) :=
  (lines.find? fun line => isRegular line.typeflag && line.name == path).map fun line =>
    (wrap (line.hdr + 512), line.fsize)

theorem listLines_mem {mem : Memory} {longName : List Byte} {items : List Item} {lines : List Line}
    (h : listLines mem longName items = some lines) {line : Line} (hline : line ∈ lines) :
    ∃ fsize typeflag, Item.file line.hdr fsize typeflag ∈ items := by
  induction items generalizing longName lines with
  | nil =>
      cases h
      cases hline
  | cons item rest ih =>
      cases item with
      | long name =>
          obtain ⟨n, t, hmem⟩ := ih h hline
          exact ⟨n, t, List.mem_cons_of_mem _ hmem⟩
      | file hdr fsize typeflag =>
          obtain ⟨name, -, h⟩ := Option.bind_eq_some_iff.mp h
          obtain ⟨later, hlater, h⟩ := Option.bind_eq_some_iff.mp h
          cases h
          rcases List.mem_cons.mp hline with rfl | hline
          · exact ⟨fsize, typeflag, List.mem_cons_self⟩
          · obtain ⟨n, t, hmem⟩ := ih hlater hline
            exact ⟨n, t, List.mem_cons_of_mem _ hmem⟩

theorem firstNamed_mem {mem : Memory} {longName path : List Byte} {items : List Item} {lines : List Line}
    (h : listLines mem longName items = some lines) {a n : Nat}
    (hfound : firstNamed path lines = some (a, n)) :
    ∃ hdr fsize typeflag, Item.file hdr fsize typeflag ∈ items ∧ a = wrap (hdr + 512) := by
  obtain ⟨line, hline, heq⟩ := Option.map_eq_some_iff.mp hfound
  obtain ⟨fsize, typeflag, hmem⟩ := listLines_mem h (List.mem_of_find?_eq_some hline)
  exact ⟨_, _, _, hmem, (Prod.mk.inj heq).1.symm⟩

theorem findIn_mem {mem : Memory} {longName path : List Byte} {items : List Item} {a n : Nat}
    (h : findIn mem path longName items = some (some (a, n))) :
    ∃ hdr fsize typeflag, Item.file hdr fsize typeflag ∈ items ∧ a = wrap (hdr + 512) := by
  induction items generalizing longName with
  | nil => cases h
  | cons item rest ih =>
      cases item with
      | long name =>
          obtain ⟨hdr, fsize, typeflag, hmem, ha⟩ := ih h
          exact ⟨hdr, fsize, typeflag, List.mem_cons_of_mem _ hmem, ha⟩
      | file hdr fsize typeflag =>
          obtain ⟨name, -, h⟩ := Option.bind_eq_some_iff.mp h
          split_ifs at h
          · exact ⟨hdr, fsize, typeflag, List.mem_cons_self,
              (Prod.mk.inj (Option.some.inj (Option.some.inj h))).1.symm⟩
          · obtain ⟨hdr', fsize', typeflag', hmem, ha⟩ := ih h
            exact ⟨hdr', fsize', typeflag', List.mem_cons_of_mem _ hmem, ha⟩

@[simp] theorem Pending.used_listed (pending : Pending) : pending.used.listed = [] := by
  cases pending <;> rfl

@[simp] theorem Pending.used_kept (pending : Pending) : pending.used.kept = pending.kept := by
  cases pending <;> rfl

@[simp] theorem Pending.ofLong_listed (name : List Byte) : (Pending.ofLong name).listed = name := by
  unfold Pending.ofLong
  split_ifs with h
  · exact h.symm
  · rfl

@[simp] theorem Pending.ofLong_kept (name : List Byte) : (Pending.ofLong name).kept = name := by
  unfold Pending.ofLong
  split_ifs with h
  · exact h.symm
  · rfl

theorem data_ne_of_hdr_ne {a b : Nat} (ha : a < 2 ^ 32) (hb : b < 2 ^ 32) (h : a ≠ b) :
    wrap (a + 512) ≠ wrap (b + 512) := by
  unfold wrap
  omega

/-- One file: the walks agree if they agree on it and, where neither stops, behind it. -/
theorem agree_file {mem : Memory} {path : List Byte} {hdr fsize : Nat} {typeflag : Byte}
    {rest : List Item} {pending : Pending} {lines : List Line} {r : Option (Nat × Nat)}
    (hlt : hdr < 2 ^ 32)
    (hnew : ∀ hdr' n t, Item.file hdr' n t ∈ rest → hdr' ≠ hdr ∧ hdr' < 2 ^ 32)
    (ih : ∀ {lines r}, listLines mem pending.used.listed rest = some lines →
      findIn mem path pending.used.kept rest = some r →
      (r = firstNamed path lines ↔ Undisturbed mem path pending.used rest))
    (hlist : listLines mem pending.listed (.file hdr fsize typeflag :: rest) = some lines)
    (hfind : findIn mem path pending.kept (.file hdr fsize typeflag :: rest) = some r) :
    r = firstNamed path lines ↔
      Undisturbed mem path pending (.file hdr fsize typeflag :: rest) := by
  obtain ⟨listName, hlistName, hlist⟩ := Option.bind_eq_some_iff.mp hlist
  obtain ⟨later, hlater, hlist⟩ := Option.bind_eq_some_iff.mp hlist
  obtain ⟨findName, hfindName, hfind⟩ := Option.bind_eq_some_iff.mp hfind
  cases hlist
  simp only [Undisturbed, hlistName, hfindName, Option.some.injEq]
  rw [pending.used_listed, pending.used_kept] at ih
  by_cases hreg : isRegular typeflag = true
  · by_cases hl : listName = path
    · have hfirst : firstNamed path (⟨hdr, typeflag, fsize, listName⟩ :: later) =
          some (wrap (hdr + 512), fsize) := by simp [firstNamed, hreg, hl]
      rw [hfirst]
      by_cases hf : findName = path
      · rw [if_pos ⟨hreg, hf⟩] at hfind
        exact iff_of_true (Option.some.inj hfind).symm ⟨fun _ => iff_of_true hl hf, Or.inl ⟨hreg, hl⟩⟩
      · -- `tar_find` passes the file that `tar_list` prints under the path
        rw [if_neg fun h => hf h.2] at hfind
        refine iff_of_false ?_ fun h => hf ((h.1 hreg).mp hl)
        rintro rfl
        obtain ⟨hdr', n, t, hmem, ha⟩ := findIn_mem hfind
        obtain ⟨hne, hlt'⟩ := hnew _ _ _ hmem
        exact data_ne_of_hdr_ne hlt' hlt hne ha.symm
    · have hfirst : firstNamed path (⟨hdr, typeflag, fsize, listName⟩ :: later) =
          firstNamed path later := by simp [firstNamed, hl]
      rw [hfirst]
      by_cases hf : findName = path
      · -- `tar_find` stops at a file that `tar_list` prints under another name
        rw [if_pos ⟨hreg, hf⟩] at hfind
        refine iff_of_false ?_ fun h => hl ((h.1 hreg).mpr hf)
        intro hr
        rw [← Option.some.inj hfind] at hr
        obtain ⟨hdr', n, t, hmem, ha⟩ := firstNamed_mem hlater hr.symm
        obtain ⟨hne, hlt'⟩ := hnew _ _ _ hmem
        exact data_ne_of_hdr_ne hlt' hlt hne ha.symm
      · rw [if_neg fun h => hf h.2] at hfind
        rw [ih hlater hfind]
        simp [hl, hf]
  · have hfirst : firstNamed path (⟨hdr, typeflag, fsize, listName⟩ :: later) =
        firstNamed path later := by simp [firstNamed, hreg]
    rw [if_neg fun h => hreg h.1] at hfind
    rw [hfirst, ih hlater hfind]
    simp [hreg]

/-- The walks over the items of an archive agree about a path exactly if no stale long
name disturbs the search. -/
theorem agree_iff {mem : Memory} {limit p : Nat} {items : List Item} (h : Items mem limit p items)
    (hp : p < 2 ^ 32) {path : List Byte} {pending : Pending} {lines : List Line}
    {r : Option (Nat × Nat)} (hlist : listLines mem pending.listed items = some lines)
    (hfind : findIn mem path pending.kept items = some r) :
    r = firstNamed path lines ↔ Undisturbed mem path pending items := by
  induction h generalizing pending lines r with
  | done _ =>
      cases hlist
      cases hfind
      exact iff_of_true rfl trivial
  | last hv =>
      cases (visit_spec hv).1 _ _ _ rfl
      refine agree_file hp (by simp) (fun hl hf => ?_) hlist hfind
      cases hl
      cases hf
      exact iff_of_true rfl trivial
  | @more p p' item rest hv hrest ih =>
      obtain ⟨⟨hp', -⟩, hhdr⟩ := (visit_spec hv).2 _ _ rfl
      cases item with
      | long name =>
          refine ih hp' ?_ ?_
          · rw [Pending.ofLong_listed]
            exact hlist
          · rw [Pending.ofLong_kept]
            exact hfind
      | file hdr fsize typeflag =>
          cases hhdr _ _ _ rfl
          exact agree_file hp (fun _ _ _ hmem => Items.not_again hv hrest hmem) (ih hp') hlist hfind

/-- For every archive on which both walks return, and every path: `tar_find` returns the
data of the first regular file that `tar_list` prints under the path, and `NULL` if there
is none, exactly if no stale long name disturbs the search. -/
theorem find_agrees_with_list {mem : Memory} {archive archiveSize : Nat} (harchive : archive < 2 ^ 32)
    {path : List Byte} {lines : List Line} {r : Option (Nat × Nat)}
    (hlist : TarList mem archive archiveSize lines) (hfind : TarFind mem archive archiveSize path r) :
    ∃ items, Items mem (wrap (archive + archiveSize)) archive items ∧
      (r = firstNamed path lines ↔ Undisturbed mem path .none items) := by
  obtain ⟨items, printed, hitems, hprinted, rfl⟩ := items_of_tarList hlist
  have hsearch := (tarFind_items_iff hitems).mp hfind
  exact ⟨items, hitems, agree_iff hitems harchive hprinted hsearch⟩

/-- A header with a name of one character, a size below 8 and a type. -/
def smallHeader (name : Char) (fsize : Nat) (typeflag : Char) (i : Nat) : Byte :=
  if i = 0 then ascii name
  else if 124 ≤ i ∧ i < 134 then ascii '0'
  else if i = 134 then BitVec.ofNat 8 (48 + fsize)
  else if i = 156 then ascii typeflag
  else 0#8

/-- At address 4096: an `L` entry with the long name `long`, a file `a` (which it names),
a file `b`, and a zero block. -/
def longDemo : Memory := fun a =>
  if a < 4096 ∨ 4096 + 2560 ≤ a then none
  else if a < 4608 then some (smallHeader 'l' 4 'L' (a - 4096))
  else if a < 5120 then some (("long".toList.map ascii).getD (a - 4608) 0#8)
  else if a < 5632 then some (smallHeader 'a' 0 '0' (a - 5120))
  else if a < 6144 then some (smallHeader 'b' 0 '0' (a - 5632))
  else some 0#8

def longDemoLines : List Line :=
  [⟨5120, ascii '0', 0, "long".toList.map ascii⟩, ⟨5632, ascii '0', 0, [ascii 'b']⟩]

theorem find_agrees_with_list_demo :
    TarList longDemo 4096 2560 longDemoLines ∧
      TarFind longDemo 4096 2560 ("long".toList.map ascii) (some (5632, 0)) ∧
      ∃ items, Items longDemo (wrap (4096 + 2560)) 4096 items ∧
        (some (5632, 0) = firstNamed ("long".toList.map ascii) longDemoLines ↔
          Undisturbed longDemo ("long".toList.map ascii) .none items) := by
  have hlist : TarList longDemo 4096 2560 longDemoLines := ⟨4, by decide +kernel⟩
  have hfind : TarFind longDemo 4096 2560 ("long".toList.map ascii) (some (5632, 0)) :=
    ⟨2, by decide +kernel⟩
  exact ⟨hlist, hfind, find_agrees_with_list (by decide) hlist hfind⟩

/-- `tar_list` prints `b`, `tar_find` still takes it for `long` and does not find it. -/
theorem find_misses_listed_file :
    ¬ ∀ (mem : Memory) (archive archiveSize : Nat) (path : List Byte) (lines : List Line)
      (r : Option (Nat × Nat)), archive < 2 ^ 32 → TarList mem archive archiveSize lines →
      TarFind mem archive archiveSize path r → r = firstNamed path lines := by
  intro h
  have hlist : TarList longDemo 4096 2560 longDemoLines := ⟨4, by decide +kernel⟩
  have hfind : TarFind longDemo 4096 2560 [ascii 'b'] none := ⟨4, by decide +kernel⟩
  exact absurd (h _ _ _ _ _ _ (by decide) hlist hfind) (by decide +kernel)

end Frostix.Tar
