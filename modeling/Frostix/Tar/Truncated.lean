import Frostix.Tar.Bounds

/-!
Entries that are cut off. `tar_find` returns a match before it comes to the test that
ends the walk at a truncated entry, so the data of the matched file may run over the end
of the archive. Where the walk only moves forward this is the only way out of the
archive. -/
namespace Frostix.Tar

open Machine32 Libc While

/-- Following the headers from `p` on with a long name held, the first regular file that
is called `path` has its header at `hdr` and the size `fsize`. -/
inductive FirstMatch (mem : Memory) (limit : Nat) (path : List Byte) :
    Nat → List Byte → Nat → Nat → Prop where
  | here {p fsize : Nat} {longName : List Byte} {typeflag : Byte}
      (h : visit mem limit p = some (.last p fsize typeflag) ∨
        ∃ p', visit mem limit p = some (.more (.file p fsize typeflag) p'))
      (hregular : isRegular typeflag = true) (hname : nameOf mem longName p = some path) :
      FirstMatch mem limit path p longName p fsize
  | long {p p' hdr fsize : Nat} {longName name : List Byte}
      (h : visit mem limit p = some (.more (.long name) p'))
      (hrest : FirstMatch mem limit path p' name hdr fsize) :
      FirstMatch mem limit path p longName hdr fsize
  | other {p p' n hdr fsize : Nat} {longName name : List Byte} {typeflag : Byte}
      (h : visit mem limit p = some (.more (.file p n typeflag) p')) (hname : nameOf mem longName p = some name)
      (hne : ¬ (isRegular typeflag = true ∧ name = path))
      (hrest : FirstMatch mem limit path p' longName hdr fsize) :
      FirstMatch mem limit path p longName hdr fsize

/-- No skip of the walk wraps: every header behind `start` lies further on. -/
def Ascending (mem : Memory) (limit start : Nat) : Prop :=
  ∀ p item p', Relation.ReflTransGen (fun p p' => ∃ item, visit mem limit p = some (.more item p')) start p →
    visit mem limit p = some (.more item p') → p ≤ p'

section
variable {mem : Memory} {limit : Nat} {path : List Byte}

/-- `tar_find` returns the data of the first match. -/
theorem returns_of_firstMatch {p hdr fsize : Nat} {longName : List Byte}
    (h : FirstMatch mem limit path p longName hdr fsize) :
    Returns (tarFindBody mem limit path) ⟨p, longName⟩ (some (wrap (hdr + 512), fsize)) := by
  induction h with
  | @here p fsize longName typeflag h hregular hname =>
      refine .of_stop ?_
      rw [tarFindBody_eq]
      rcases h with h | ⟨p', h⟩
      · simp [h, hname, hregular]
      · simp [h, hname, hregular]
  | long h _ ih =>
      refine .of_next ?_ ih
      rw [tarFindBody_eq, h]
      rfl
  | other h hname hne _ ih =>
      refine .of_next ?_ ih
      rw [tarFindBody_eq, h]
      simp only [Option.bind_some, hname, Option.map_some]
      rw [if_neg hne]

theorem firstMatch_of_returns {f : FindState} {r : Option (Nat × Nat)}
    (h : Returns (tarFindBody mem limit path) f r) :
    ∀ d n, r = some (d, n) → ∃ hdr, FirstMatch mem limit path f.p f.longName hdr n ∧ d = wrap (hdr + 512) := by
  refine h.induction (motive := fun f r => ∀ d n, r = some (d, n) →
    ∃ hdr, FirstMatch mem limit path f.p f.longName hdr n ∧ d = wrap (hdr + 512)) ?_ ?_
  · rintro f r hbody d n rfl
    rw [tarFindBody_eq] at hbody
    obtain ⟨v, hv, hout⟩ := Option.bind_eq_some_iff.mp hbody
    rcases v with _ | ⟨hdr, fsize, typeflag⟩ | ⟨_ | ⟨hdr, fsize, typeflag⟩, p⟩
    · cases hout
    · obtain ⟨name, hname, hout⟩ := Option.map_eq_some_iff.mp hout
      cases (visit_spec hv).1 _ _ _ rfl
      split_ifs at hout with hmatch
      · obtain ⟨hd, hn⟩ := Prod.mk.inj (Option.some.inj (Outcome.stop.inj hout))
        rw [hn] at hv
        exact ⟨f.p, .here (Or.inl hv) hmatch.1 (hname.trans (congrArg some hmatch.2)), hd.symm⟩
      · cases hout
    · cases hout
    · obtain ⟨name, hname, hout⟩ := Option.map_eq_some_iff.mp hout
      cases ((visit_spec hv).2 _ _ rfl).2 _ _ _ rfl
      split_ifs at hout with hmatch
      obtain ⟨hd, hn⟩ := Prod.mk.inj (Option.some.inj (Outcome.stop.inj hout))
      rw [hn] at hv
      exact ⟨f.p, .here (Or.inr ⟨p, hv⟩) hmatch.1 (hname.trans (congrArg some hmatch.2)), hd.symm⟩
  · intro f g r hbody _ ih d n hr
    obtain ⟨hdr, hmatch, hd⟩ := ih d n hr
    refine ⟨hdr, ?_, hd⟩
    rw [tarFindBody_eq] at hbody
    obtain ⟨v, hv, hout⟩ := Option.bind_eq_some_iff.mp hbody
    rcases v with _ | ⟨hdr', fsize, typeflag⟩ | ⟨name | ⟨hdr', fsize, typeflag⟩, p⟩
    · cases hout
    · obtain ⟨name, -, hout⟩ := Option.map_eq_some_iff.mp hout
      split_ifs at hout
    · cases hout
      exact .long hv hmatch
    · obtain ⟨name, hname, hout⟩ := Option.map_eq_some_iff.mp hout
      cases ((visit_spec hv).2 _ _ rfl).2 _ _ _ rfl
      split_ifs at hout with hne
      cases hout
      exact .other hv hname hne hmatch

theorem FirstMatch.reached {p hdr fsize : Nat} {longName : List Byte}
    (h : FirstMatch mem limit path p longName hdr fsize) :
    Relation.ReflTransGen (fun p p' => ∃ item, visit mem limit p = some (.more item p')) p hdr ∧
      wrap (hdr + 512) ≤ limit := by
  induction h with
  | @here p fsize longName typeflag h =>
      refine ⟨.refl, ?_⟩
      by_contra hout
      have hdone : visit mem limit p = some .done := by
        unfold visit
        exact if_neg hout
      rcases h with h | ⟨p', h⟩ <;> cases hdone.symm.trans h
  | long h _ ih => exact ⟨.head ⟨_, h⟩ ih.1, ih.2⟩
  | other h _ _ _ ih => exact ⟨.head ⟨_, h⟩ ih.1, ih.2⟩

theorem Ascending.inside {start p : Nat} (h : Ascending mem limit start) (hstart : start ≤ limit)
    (hp : Relation.ReflTransGen (fun p p' => ∃ item, visit mem limit p = some (.more item p')) start p) :
    start ≤ p ∧ p ≤ limit := by
  induction hp with
  | refl => exact ⟨le_rfl, hstart⟩
  | @tail p p' hp hstep ih =>
      obtain ⟨item, hvisit⟩ := hstep
      exact ⟨ih.1.trans (h p item p' hp hvisit), ((visit_spec hvisit).2 _ _ rfl).1.2⟩

end

/-- For every content of memory, archive and path: what `tar_find` returns lies inside the
archive exactly if the data of the first match does, in the code's own address of it; and
for an archive that the walk does not leave backwards and that ends a block below 4 GiB,
exactly if the first match is not cut off. -/
theorem tar_find_inside_iff (mem : Memory) (archive archiveSize : Nat) (path : List Byte) :
    ((∀ d n, TarFind mem archive archiveSize path (some (d, n)) → archive ≤ d ∧ d + n ≤ archive + archiveSize) ↔
      ∀ hdr fsize, FirstMatch mem (wrap (archive + archiveSize)) path archive [] hdr fsize →
        archive ≤ wrap (hdr + 512) ∧ wrap (hdr + 512) + fsize ≤ archive + archiveSize) ∧
    (archive + archiveSize + 512 < 2 ^ 32 → Ascending mem (archive + archiveSize) archive →
      ((∀ d n, TarFind mem archive archiveSize path (some (d, n)) →
          archive ≤ d ∧ d + n ≤ archive + archiveSize) ↔
        ∀ hdr fsize, FirstMatch mem (archive + archiveSize) path archive [] hdr fsize →
          hdr + 512 + fsize ≤ archive + archiveSize)) := by
  have hgeneral : (∀ d n, TarFind mem archive archiveSize path (some (d, n)) →
      archive ≤ d ∧ d + n ≤ archive + archiveSize) ↔
      ∀ hdr fsize, FirstMatch mem (wrap (archive + archiveSize)) path archive [] hdr fsize →
        archive ≤ wrap (hdr + 512) ∧ wrap (hdr + 512) + fsize ≤ archive + archiveSize := by
    constructor
    · exact fun h hdr fsize hmatch => h _ _ (returns_of_firstMatch hmatch)
    · intro h d n hreturns
      obtain ⟨hdr, hmatch, hd⟩ := firstMatch_of_returns hreturns d n rfl
      rw [hd]
      exact h hdr n hmatch
  refine ⟨hgeneral, fun hroom hascending => hgeneral.trans ?_⟩
  rw [wrap_of_lt (show archive + archiveSize < 2 ^ 32 by omega)]
  refine forall₂_congr fun hdr fsize => forall_congr' fun hmatch => ?_
  obtain ⟨hlo, hhi⟩ := hascending.inside (Nat.le_add_right _ _) hmatch.reached.1
  rw [wrap_of_lt (show hdr + 512 < 2 ^ 32 by omega)]
  omega

deriving instance DecidableEq for Visit

/-- A header at address 4096 of a regular file `a`, with these digits of its size. -/
def loneHeader (digits : String) : Nat → Byte := fun a =>
  if a = 4096 then ascii 'a'
  else if 4220 ≤ a ∧ a < 4231 then (digits.toList.map ascii).getD (a - 4220) 0#8
  else 0#8

/-- Five bytes of data behind the header. -/
theorem tar_find_inside_five :
    TarFind (archiveMemory (loneHeader "5") 4096 1024) 4096 1024 [ascii 'a'] (some (4608, 5)) ∧
      ∀ d n, TarFind (archiveMemory (loneHeader "5") 4096 1024) 4096 1024 [ascii 'a'] (some (d, n)) →
        4096 ≤ d ∧ d + n ≤ 4096 + 1024 := by
  have hvisit : visit (archiveMemory (loneHeader "5") 4096 1024) (wrap (4096 + 1024)) 4096 =
      some (.more (.file 4096 5 0#8) 5120) := by decide +kernel
  have hname : nameOf (archiveMemory (loneHeader "5") 4096 1024) [] 4096 = some [ascii 'a'] := by
    decide +kernel
  have hfind : TarFind (archiveMemory (loneHeader "5") 4096 1024) 4096 1024 [ascii 'a']
      (some (wrap (4096 + 512), 5)) := returns_of_firstMatch (.here (Or.inr ⟨_, hvisit⟩) (by decide) hname)
  rw [show wrap (4096 + 512) = 4608 by decide +kernel] at hfind
  refine ⟨hfind, ?_⟩
  refine (tar_find_inside_iff (archiveMemory (loneHeader "5") 4096 1024) 4096 1024 [ascii 'a']).1.mpr ?_
  intro hdr fsize hmatch
  cases hmatch with
  | here h =>
      rcases h with h | ⟨p', h⟩
      · cases hvisit.symm.trans h
      · cases hvisit.symm.trans h
        decide
  | long h _ => cases hvisit.symm.trans h
  | other h hother hne _ =>
      cases hvisit.symm.trans h
      exact absurd ⟨by decide, Option.some.inj (hother.symm.trans hname)⟩ hne

/-- A thousand bytes, of which the archive has none. -/
theorem tar_find_returns_cut_off :
    TarFind (archiveMemory (loneHeader "1750") 4096 512) 4096 512 [ascii 'a'] (some (4608, 1000)) ∧
      ¬ ∀ (mem : Memory) (archive archiveSize : Nat) (path : List Byte) (d n : Nat),
        TarFind mem archive archiveSize path (some (d, n)) →
          archive ≤ d ∧ d + n ≤ archive + archiveSize := by
  have hvisit : visit (archiveMemory (loneHeader "1750") 4096 512) (wrap (4096 + 512)) 4096 =
      some (.last 4096 1000 0#8) := by decide +kernel
  have hname : nameOf (archiveMemory (loneHeader "1750") 4096 512) [] 4096 = some [ascii 'a'] := by
    decide +kernel
  have hfind : TarFind (archiveMemory (loneHeader "1750") 4096 512) 4096 512 [ascii 'a']
      (some (wrap (4096 + 512), 1000)) := returns_of_firstMatch (.here (Or.inl hvisit) (by decide) hname)
  rw [show wrap (4096 + 512) = 4608 by decide +kernel] at hfind
  refine ⟨hfind, fun h => ?_⟩
  have hinside := (h _ 4096 512 _ _ _ hfind).2
  omega

end Frostix.Tar
