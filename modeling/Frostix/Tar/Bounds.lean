import Frostix.Tar.Items

/-!
Termination and memory safety of both walks, for every archive. Only the bytes of the
archive are readable here, so a walk that returns has read no other. The walks are safe
exactly if `tar_list` meets no header at which a 32-bit sum wraps, the size makes the
skip zero, or the name runs out of the archive. -/
namespace Frostix.Tar

open Machine32 Libc While

def archiveMemory (bytes : Nat → Byte) (archive archiveSize : Nat) : Memory := fun a =>
  if archive ≤ a ∧ a < archive + archiveSize then some (bytes a) else none

def skip (fsize : Nat) : Nat := wrap (512 + roundUp512 fsize)

structure EntryOk (bytes : Nat → Byte) (limit : Nat) (s : ListState) (fsize : Nat) (typeflag : Byte) :
    Prop where
  /-- the copy of a long name does not run over the top of the address space -/
  longFits : typeflag = ascii 'L' → s.p + 512 + copyLen fsize < 2 ^ 32
  /-- a prefix that is read ends inside the archive -/
  dirEnds : typeflag ≠ ascii 'L' → s.longName = [] → bytes (s.p + 345) ≠ 0#8 →
    ∃ i < 255, s.p + 345 + i < limit ∧ (bytes (s.p + 345 + i) = 0#8 ∨ i = 254)
  /-- unless a long name is cut off, the skip is not zero and does not wrap -/
  skips : (typeflag = ascii 'L' → s.p + 512 + copyLen fsize ≤ limit) →
    skip fsize ≠ 0 ∧ s.p + skip fsize < 2 ^ 32

/-- What an iteration of `tar_list` that is reached must meet. -/
def StepOk (bytes : Nat → Byte) (mem : Memory) (limit : Nat) (s : ListState) : Prop :=
  wrap (s.p + 512) ≤ limit → s.p + 512 < 2 ^ 32 ∧
    (headerIsZero mem s.p = some false → ∀ fsize typeflag, tarParseOctal mem (s.p + 124) 12 = some fsize →
      load mem (s.p + 156) = some typeflag → EntryOk bytes limit s fsize typeflag)

/-- The loop returns, and every iteration moves `p` forward by at least 512. -/
def SafeWalk {σ ρ : Type} (body : σ → Option (Outcome σ ρ)) (p : σ → Nat) (start : σ) : Prop :=
  (∃ r, Returns body start r) ∧ ∀ s t, Visits body start s → body s = some (.next t) → p s + 512 ≤ p t

/-- A string is read exactly if every byte up to its end is readable. -/
theorem readUntil_isSome_iff {mem : Memory} {stops : Byte → Bool} {a n : Nat} :
    (∃ l, readUntil mem stops a n = some l) ↔
      ∀ i < n, (∀ j < i, ∃ c, load mem (a + j) = some c ∧ stops c = false) →
        ∃ c, load mem (a + i) = some c := by
  induction n generalizing a with
  | zero => simp [readUntil]
  | succ n ih =>
      constructor
      · rintro ⟨l, hl⟩ i hi hbefore
        obtain ⟨c, hc, hrest⟩ := Option.bind_eq_some_iff.mp hl
        cases i with
        | zero => exact ⟨c, hc⟩
        | succ i =>
            obtain ⟨c', hc', hgo⟩ := hbefore 0 (Nat.succ_pos i)
            rw [Nat.add_zero, hc] at hc'
            cases hc'
            rw [if_neg (by simp [hgo])] at hrest
            obtain ⟨l', hl', -⟩ := Option.bind_eq_some_iff.mp hrest
            have hlater := ih.mp ⟨l', hl'⟩ i (by omega) fun j hj => by
              rw [Nat.add_assoc, Nat.add_comm 1 j]
              exact hbefore (j + 1) (by omega)
            rwa [Nat.add_assoc, Nat.add_comm 1 i] at hlater
      · intro h
        obtain ⟨c, hc⟩ := h 0 (Nat.succ_pos n) (by simp)
        rw [Nat.add_zero] at hc
        by_cases hstop : stops c = true
        · exact ⟨[], by simp [readUntil, hc, hstop]⟩
        · have hlater : ∃ l, readUntil mem stops (a + 1) n = some l := ih.mpr fun i hi hbefore => by
            rw [Nat.add_assoc, Nat.add_comm 1 i]
            refine h (i + 1) (by omega) fun j hj => ?_
            cases j with
            | zero => exact ⟨c, hc, by simpa using hstop⟩
            | succ j =>
                obtain ⟨d, hd, hgo⟩ := hbefore j (by omega)
                rw [Nat.add_assoc, Nat.add_comm 1 j] at hd
                exact ⟨d, hd, hgo⟩
          obtain ⟨l, hl⟩ := hlater
          exact ⟨c :: l, by simp [readUntil, hc, hstop, hl]⟩

theorem readUntil_of_readable {mem : Memory} {stops : Byte → Bool} {a n : Nat}
    (h : ∀ i < n, ∃ c, load mem (a + i) = some c) : ∃ l, readUntil mem stops a n = some l :=
  readUntil_isSome_iff.mpr fun i hi _ => h i hi

theorem readable_of_copy {mem : Memory} {a n : Nat} {l : List Byte}
    (h : readUntil mem (fun _ => false) a n = some l) {i : Nat} (hi : i < n) :
    ∃ c, load mem (a + i) = some c := by
  induction i using Nat.strong_induction_on with
  | _ i ih =>
      refine readUntil_isSome_iff.mp ⟨l, h⟩ i hi fun j hj => ?_
      obtain ⟨c, hc⟩ := ih j hj (by omega)
      exact ⟨c, hc, rfl⟩

theorem allZero_of_readable {mem : Memory} {a n : Nat} (h : ∀ i < n, ∃ c, load mem (a + i) = some c) :
    ∃ b, allZero mem a n = some b := by
  induction n generalizing a with
  | zero => exact ⟨true, rfl⟩
  | succ n ih =>
      obtain ⟨c, hc⟩ := h 0 (Nat.succ_pos n)
      rw [Nat.add_zero] at hc
      obtain ⟨b, hb⟩ := @ih (a + 1) fun i hi => by
        rw [Nat.add_assoc, Nat.add_comm 1 i]
        exact h (i + 1) (by omega)
      by_cases hzero : c = 0#8
      · exact ⟨b, by simp [allZero, hc, hzero, hb]⟩
      · exact ⟨false, by simp [allZero, hc, hzero]⟩

theorem readable_of_allZero {mem : Memory} {a n : Nat} (h : allZero mem a n = some true) {i : Nat}
    (hi : i < n) : ∃ c, load mem (a + i) = some c := by
  induction n generalizing a i with
  | zero => cases hi
  | succ n ih =>
      obtain ⟨c, hc, hrest⟩ := Option.bind_eq_some_iff.mp h
      cases i with
      | zero => exact ⟨c, hc⟩
      | succ i =>
          split_ifs at hrest with hzero
          · cases hrest
          · have hlater := ih hrest (Nat.lt_of_succ_lt_succ hi)
            rwa [Nat.add_assoc, Nat.add_comm 1 i] at hlater

theorem skip_ge {fsize : Nat} (h : skip fsize ≠ 0) : 512 ≤ skip fsize := by
  unfold skip roundUp512 alignUp wrap at *
  omega

theorem advance_eq (limit p fsize : Nat) :
    advance limit p fsize = if limit < wrap (p + skip fsize) then none else some (wrap (p + skip fsize)) := rfl

theorem advance_forward {limit p fsize p' : Nat} (hne : skip fsize ≠ 0) (hfit : p + skip fsize < 2 ^ 32)
    (h : advance limit p fsize = some p') : p + 512 ≤ p' ∧ p' ≤ limit := by
  have hge := skip_ge hne
  rw [advance_eq, wrap_of_lt hfit] at h
  split_ifs at h
  cases h
  omega

theorem advance_back {limit p fsize : Nat} (hp : p ≤ limit) (hlimit : limit < 2 ^ 32)
    (h : skip fsize = 0 ∨ 2 ^ 32 ≤ p + skip fsize) :
    ∃ p', advance limit p fsize = some p' ∧ p' < p + 512 := by
  have hlt : skip fsize < 2 ^ 32 := wrap_lt _
  have hback : wrap (p + skip fsize) ≤ p := by
    unfold wrap
    omega
  exact ⟨_, by rw [advance_eq, if_neg (by omega)], by omega⟩

section
variable {bytes : Nat → Byte} {archive archiveSize : Nat} (hfit : archive + archiveSize < 2 ^ 32)

include hfit

theorem load_archive {a : Nat} (hlo : archive ≤ a) (hhi : a < archive + archiveSize) :
    load (archiveMemory bytes archive archiveSize) a = some (bytes a) := by
  rw [load, wrap_of_lt (by omega), archiveMemory, if_pos ⟨hlo, hhi⟩]

theorem load_limit {c : Byte} :
    load (archiveMemory bytes archive archiveSize) (archive + archiveSize) ≠ some c := by
  rw [load, wrap_of_lt hfit, archiveMemory, if_neg (by omega)]
  simp

theorem read_inside {a n : Nat} (ha : a ≤ archive + archiveSize)
    (h : ∀ i < n, ∃ c, load (archiveMemory bytes archive archiveSize) (a + i) = some c) :
    a + n ≤ archive + archiveSize := by
  by_contra hover
  obtain ⟨c, hc⟩ := h (archive + archiveSize - a) (by omega)
  rw [Nat.add_sub_of_le ha] at hc
  exact load_limit hfit hc

theorem read_block {p : Nat} (hlo : archive ≤ p) (hroom : p + 512 ≤ archive + archiveSize) {a n : Nat}
    (ha : p ≤ a) (hn : a + n ≤ p + 512) :
    ∀ i < n, ∃ c, load (archiveMemory bytes archive archiveSize) (a + i) = some c :=
  fun i hi => ⟨_, load_archive hfit (by omega) (by omega)⟩

theorem nameOf_inside {s : ListState} (hlo : archive ≤ s.p) (hroom : s.p + 512 ≤ archive + archiveSize)
    (hdir : s.longName = [] → bytes (s.p + 345) ≠ 0#8 → ∃ i < 255, s.p + 345 + i < archive + archiveSize ∧
      (bytes (s.p + 345 + i) = 0#8 ∨ i = 254)) :
    ∃ name, nameOf (archiveMemory bytes archive archiveSize) s.longName s.p = some name := by
  by_cases hlong : s.longName = []
  · have hname : ∀ n ≤ 255, ∃ l,
        readUntil (archiveMemory bytes archive archiveSize) isNul s.p n = some l := fun n hn =>
      readUntil_of_readable (read_block hfit hlo hroom le_rfl (by omega))
    rw [nameOf, if_neg (by simpa using hlong), buildFullName,
      load_archive hfit (show archive ≤ s.p + 345 by omega) (by omega)]
    simp only [Option.bind_eq_bind, Option.bind_some]
    split_ifs with hfirst
    · obtain ⟨i, hi, hin, hends⟩ := hdir hlong hfirst
      have hread : ∃ l, readUntil (archiveMemory bytes archive archiveSize) isNul (s.p + 345) 255 = some l := by
        refine readUntil_isSome_iff.mpr fun j hj hbefore => ⟨_, load_archive hfit (by omega) ?_⟩
        by_contra hout
        obtain ⟨c, hc, hgo⟩ := hbefore i (by omega)
        rw [load_archive hfit (by omega) hin, Option.some.injEq] at hc
        rcases hends with hzero | hlast
        · rw [← hc, hzero] at hgo
          cases hgo
        · omega
      obtain ⟨out, hout⟩ := hread
      obtain ⟨l, hl⟩ := hname (256 - 1 - (if out.length + 1 < 256 then out ++ [ascii '/'] else out).length)
        (by omega)
      exact ⟨_, by simp only [hout, hl, Option.bind_some, Option.pure_def]; rfl⟩
    · exact hname 255 le_rfl
  · exact ⟨_, by rw [nameOf, if_pos (by simpa using hlong)]⟩

/-- What is visited where the step is in order: it can be read, the next header lies
further on, and the name of a file can be read. -/
theorem visit_of_ok {s : ListState} (hlo : archive ≤ s.p)
    (hok : StepOk bytes (archiveMemory bytes archive archiveSize) (archive + archiveSize) s) :
    ∃ v, visit (archiveMemory bytes archive archiveSize) (archive + archiveSize) s.p = some v ∧
      (∀ item p', v = .more item p' → s.p + 512 ≤ p' ∧ p' ≤ archive + archiveSize) ∧
      (∀ hdr n t, (v = .last hdr n t ∨ ∃ p', v = .more (.file hdr n t) p') →
        ∃ name, nameOf (archiveMemory bytes archive archiveSize) s.longName hdr = some name) := by
  by_cases hroom : wrap (s.p + 512) ≤ archive + archiveSize
  · obtain ⟨htop, hentry⟩ := hok hroom
    have hroom' : s.p + 512 ≤ archive + archiveSize := by rwa [wrap_of_lt htop] at hroom
    have hread : ∀ a n, s.p ≤ a → a + n ≤ s.p + 512 → ∀ i < n,
        ∃ c, load (archiveMemory bytes archive archiveSize) (a + i) = some c :=
      fun a n ha hn => read_block hfit hlo hroom' ha hn
    have hfield : ∃ l, readUntil (archiveMemory bytes archive archiveSize) endsField (s.p + 124) 12 = some l :=
      readUntil_of_readable (hread _ _ (by omega) (by omega))
    obtain ⟨field, hfield⟩ := hfield
    obtain ⟨zero, hzero⟩ := allZero_of_readable (hread s.p 512 le_rfl le_rfl)
    have hsize : tarParseOctal (archiveMemory bytes archive archiveSize) (s.p + 124) 12 =
        some (octalValue field) := by simp [tarParseOctal, hfield]
    have htype := @load_archive bytes _ _ hfit (s.p + 156) (by omega) (by omega)
    generalize octalValue field = fsize at hsize
    rw [visit, if_pos hroom, headerIsZero, hzero, hsize, htype]
    simp only [Option.bind_eq_bind, Option.bind_some, Option.pure_def]
    cases zero with
    | true => exact ⟨.done, rfl, nofun, by rintro _ _ _ (h | ⟨_, h⟩) <;> cases h⟩
    | false =>
        have he := hentry hzero fsize _ hsize htype
        simp only [Bool.false_eq_true, if_false]
        by_cases hlong : bytes (s.p + 156) = ascii 'L'
        · have hlongFits := he.longFits hlong
          rw [if_pos hlong, readLongName, wrap_of_lt htop, wrap_of_lt hlongFits]
          by_cases hcut : archive + archiveSize < s.p + 512 + copyLen fsize
          · rw [if_pos hcut]
            exact ⟨.done, rfl, nofun, by rintro _ _ _ (h | ⟨_, h⟩) <;> cases h⟩
          · obtain ⟨hne, hskip⟩ := he.skips fun _ => by omega
            have hcopied : ∃ l, readUntil (archiveMemory bytes archive archiveSize) (fun _ => false)
                (s.p + 512) (copyLen fsize) = some l :=
              readUntil_of_readable fun i hi => ⟨_, load_archive hfit (by omega) (by omega)⟩
            obtain ⟨copied, hcopied⟩ := hcopied
            rw [if_neg hcut, if_neg (by omega), hcopied]
            cases hadv : advance (archive + archiveSize) s.p fsize with
            | none => exact ⟨.done, rfl, nofun, by rintro _ _ _ (h | ⟨_, h⟩) <;> cases h⟩
            | some q =>
                refine ⟨_, rfl, fun item p' heq => ?_, by rintro _ _ _ (h | ⟨_, h⟩) <;> cases h⟩
                cases heq
                exact advance_forward hne hskip hadv
        · obtain ⟨hne, hskip⟩ := he.skips fun h => absurd h hlong
          have hname := nameOf_inside hfit hlo hroom' (he.dirEnds hlong)
          rw [if_neg hlong]
          cases hadv : advance (archive + archiveSize) s.p fsize with
          | none =>
              refine ⟨_, rfl, nofun, ?_⟩
              rintro _ _ _ (h | ⟨_, h⟩) <;> cases h
              exact hname
          | some q =>
              refine ⟨_, rfl, fun item p' heq => ?_, ?_⟩
              rotate_left
              · rintro _ _ _ (h | ⟨_, h⟩) <;> cases h
                exact hname
              cases heq
              exact advance_forward hne hskip hadv
  · exact ⟨.done, by rw [visit, if_neg hroom]; rfl, nofun, by rintro _ _ _ (h | ⟨_, h⟩) <;> cases h⟩

omit hfit in
/-- What an iteration of `tar_list` does behind a header that is not zero. -/
theorem body_facts {mem : Memory} {limit : Nat} {s : ListState} {o : Outcome ListState (List Line)}
    (hbody : tarListBody mem limit s = some o) (hroom : wrap (s.p + 512) ≤ limit)
    (hzero : headerIsZero mem s.p = some false) {fsize : Nat} {typeflag : Byte}
    (hsize : tarParseOctal mem (s.p + 124) 12 = some fsize) (htype : load mem (s.p + 156) = some typeflag)
    (hforward : ∀ t, o = .next t → s.p + 512 ≤ t.p) :
    (typeflag = ascii 'L' → ∃ res, readLongName mem limit s.p fsize = some res ∧
      ∀ name p', res = some (name, p') → s.p + 512 ≤ p') ∧
    (typeflag ≠ ascii 'L' → (∃ name, nameOf mem s.longName s.p = some name) ∧
      ∀ p', advance limit s.p fsize = some p' → s.p + 512 ≤ p') := by
  simp only [tarListBody, if_pos hroom, hzero, hsize, htype, Option.bind_eq_bind, Option.bind_some,
    Option.pure_def, Bool.false_eq_true, if_false] at hbody
  refine ⟨fun hlong => ?_, fun hlong => ?_⟩
  · rw [if_pos hlong] at hbody
    obtain ⟨res, hres, hbody⟩ := Option.bind_eq_some_iff.mp hbody
    refine ⟨res, hres, ?_⟩
    rintro name p' rfl
    cases hbody
    exact hforward _ rfl
  · rw [if_neg hlong] at hbody
    obtain ⟨name, hname, hbody⟩ := Option.bind_eq_some_iff.mp hbody
    refine ⟨⟨name, hname⟩, fun p' hadv => ?_⟩
    rw [hadv] at hbody
    cases hbody
    exact hforward _ rfl

theorem dir_ends_of_name {s : ListState} (hroom : s.p + 512 ≤ archive + archiveSize)
    (hlo : archive ≤ s.p) (hlong : s.longName = [])
    (hname : ∃ name, nameOf (archiveMemory bytes archive archiveSize) s.longName s.p = some name)
    (hfirst : bytes (s.p + 345) ≠ 0#8) :
    ∃ i < 255, s.p + 345 + i < archive + archiveSize ∧ (bytes (s.p + 345 + i) = 0#8 ∨ i = 254) := by
  obtain ⟨name, hname⟩ := hname
  rw [nameOf, if_neg (by simpa using hlong), buildFullName,
    load_archive hfit (show archive ≤ s.p + 345 by omega) (by omega)] at hname
  simp only [Option.bind_eq_bind, Option.bind_some, if_pos hfirst] at hname
  obtain ⟨out, hout, -⟩ := Option.bind_eq_some_iff.mp hname
  have hread := readUntil_isSome_iff.mp ⟨out, hout⟩
  by_contra hnone
  push Not at hnone
  -- no byte inside the archive ends the prefix, so all of them are read, and one behind it
  obtain ⟨c, hc⟩ := hread (archive + archiveSize - (s.p + 345)) (by
      by_contra hlen
      exact (hnone 254 (by decide) (by omega)).2 rfl)
    fun j hj => ⟨_, load_archive hfit (by omega) (by omega), by
      have hj' := (hnone j (by
        by_contra hlen
        exact (hnone 254 (by decide) (by omega)).2 rfl) (by omega)).1
      simpa [isNul] using hj'⟩
  rw [Nat.add_sub_of_le (by omega)] at hc
  exact load_limit hfit hc

omit hfit in
theorem readLongName_facts {mem : Memory} {limit p fsize : Nat} {res : Option (List Byte × Nat)}
    (h : readLongName mem limit p fsize = some res)
    (hfits : wrap (wrap (p + 512) + copyLen fsize) ≤ limit) :
    (∃ copied, readUntil mem (fun _ => false) (wrap (p + 512)) (copyLen fsize) = some copied) ∧
      ∀ p', advance limit p fsize = some p' → ∃ name, res = some (name, p') := by
  rw [readLongName] at h
  rw [if_neg (not_lt.mpr hfits)] at h
  split_ifs at h
  obtain ⟨copied, hcopied, hres⟩ := Option.map_eq_some_iff.mp h
  refine ⟨⟨copied, hcopied⟩, fun p' hadv => ⟨copied.takeWhile fun c => !isNul c, ?_⟩⟩
  rw [← hres, hadv]
  rfl

omit hfit in
theorem copyLen_le (fsize : Nat) : copyLen fsize ≤ 4095 := by
  unfold copyLen
  split_ifs <;> omega

/-- A header that does not end below 4 GiB is never passed. -/
theorem header_below_top {s : ListState} (hhi : s.p ≤ archive + archiveSize)
    {o : Outcome ListState (List Line)}
    (hbody : tarListBody (archiveMemory bytes archive archiveSize) (archive + archiveSize) s = some o)
    (hforward : ∀ t, o = .next t → s.p + 512 ≤ t.p) (hroom : wrap (s.p + 512) ≤ archive + archiveSize) :
    s.p + 512 < 2 ^ 32 := by
  by_contra hover
  have hrun := hbody
  rw [tarListBody, if_pos hroom] at hrun
  obtain ⟨zero, hzero, hrun⟩ := Option.bind_eq_some_iff.mp hrun
  cases zero with
  | true =>
      obtain ⟨c, hc⟩ := readable_of_allZero hzero (show archive + archiveSize - s.p < 512 by omega)
      rw [Nat.add_sub_of_le hhi] at hc
      exact load_limit hfit hc
  | false =>
      obtain ⟨fsize, hsize, hrun⟩ := Option.bind_eq_some_iff.mp hrun
      obtain ⟨typeflag, htype, -⟩ := Option.bind_eq_some_iff.mp hrun
      obtain ⟨hlongCase, hfileCase⟩ := body_facts hbody hroom hzero hsize htype hforward
      -- any skip of at least a block wraps here
      obtain ⟨p', hadv, hback⟩ := @advance_back _ _ fsize hhi hfit (by
        by_cases hne : skip fsize = 0
        · exact Or.inl hne
        · have := skip_ge hne
          exact Or.inr (by omega))
      by_cases hlong : typeflag = ascii 'L'
      · obtain ⟨res, hres, hgo⟩ := hlongCase hlong
        have hcopy := copyLen_le fsize
        have hfits : wrap (wrap (s.p + 512) + copyLen fsize) ≤ archive + archiveSize := by
          unfold wrap
          omega
        obtain ⟨name, hname⟩ := (readLongName_facts hres hfits).2 p' hadv
        have := hgo name p' hname
        omega
      · have := (hfileCase hlong).2 p' hadv
        omega

/-- An iteration that has a value and moves forward is in order. -/
theorem stepOk_of_forward {s : ListState} (hlo : archive ≤ s.p) (hhi : s.p ≤ archive + archiveSize)
    {o : Outcome ListState (List Line)}
    (hbody : tarListBody (archiveMemory bytes archive archiveSize) (archive + archiveSize) s = some o)
    (hforward : ∀ t, o = .next t → s.p + 512 ≤ t.p) :
    StepOk bytes (archiveMemory bytes archive archiveSize) (archive + archiveSize) s := by
  intro hroom
  have htop := header_below_top hfit hhi hbody hforward hroom
  have hroom' : s.p + 512 ≤ archive + archiveSize := by rwa [wrap_of_lt htop] at hroom
  refine ⟨htop, fun hzero fsize typeflag hsize htype => ?_⟩
  obtain ⟨hlongCase, hfileCase⟩ := body_facts hbody hroom hzero hsize htype hforward
  have hcopy := copyLen_le fsize
  refine ⟨fun hlong => ?_, fun hlong hempty hfirst => ?_, fun hcut => ?_⟩
  · by_contra hover
    obtain ⟨res, hres, -⟩ := hlongCase hlong
    have hfits : wrap (wrap (s.p + 512) + copyLen fsize) ≤ archive + archiveSize := by
      rw [wrap_of_lt htop]
      unfold wrap
      omega
    obtain ⟨⟨copied, hcopied⟩, -⟩ := readLongName_facts hres hfits
    rw [wrap_of_lt htop] at hcopied
    have := read_inside hfit hroom' fun i hi => readable_of_copy hcopied hi
    omega
  · exact dir_ends_of_name hfit hroom' hlo hempty (hfileCase hlong).1 hfirst
  · by_contra hbad
    obtain ⟨p', hadv, hback⟩ := @advance_back _ _ fsize hhi hfit (by
      by_contra hnot
      exact hbad ⟨fun h => hnot (Or.inl h), not_le.mp fun h => hnot (Or.inr h)⟩)
    by_cases hlong : typeflag = ascii 'L'
    · obtain ⟨res, hres, hgo⟩ := hlongCase hlong
      have hfits : wrap (wrap (s.p + 512) + copyLen fsize) ≤ archive + archiveSize := by
        have := hcut hlong
        rw [wrap_of_lt htop, wrap_of_lt (by omega)]
        exact this
      obtain ⟨name, hname⟩ := (readLongName_facts hres hfits).2 p' hadv
      have := hgo name p' hname
      omega
    · have := (hfileCase hlong).2 p' hadv
      omega

/-- The steps of `tar_list` that are reached are in order. -/
def WalkOk (bytes : Nat → Byte) (archive archiveSize : Nat) : Prop :=
  ∀ s, Visits (tarListBody (archiveMemory bytes archive archiveSize) (archive + archiveSize))
      ⟨archive, [], []⟩ s →
    StepOk bytes (archiveMemory bytes archive archiveSize) (archive + archiveSize) s

theorem visited_inside (hok : WalkOk bytes archive archiveSize) {s : ListState}
    (hv : Visits (tarListBody (archiveMemory bytes archive archiveSize) (archive + archiveSize))
      ⟨archive, [], []⟩ s) : archive ≤ s.p ∧ s.p ≤ archive + archiveSize := by
  induction hv with
  | refl => exact ⟨le_rfl, Nat.le_add_right _ _⟩
  | @tail s t hs hstep ih =>
      obtain ⟨item, hvisit⟩ := visit_of_list_next hstep
      obtain ⟨v, hv, hgo, -⟩ := visit_of_ok hfit ih.1 (hok s hs)
      cases hv.symm.trans hvisit
      have := hgo _ _ rfl
      omega

theorem list_step {s : ListState} (hok : WalkOk bytes archive archiveSize)
    (hs : Visits (tarListBody (archiveMemory bytes archive archiveSize) (archive + archiveSize))
      ⟨archive, [], []⟩ s) :
    ∃ o, tarListBody (archiveMemory bytes archive archiveSize) (archive + archiveSize) s = some o ∧
      ∀ t, o = .next t → s.p + 512 ≤ t.p ∧ t.p ≤ archive + archiveSize := by
  obtain ⟨v, hv, hgo, hname⟩ := visit_of_ok hfit (visited_inside hfit hok hs).1 (hok s hs)
  obtain ⟨o, ho⟩ := list_body_isSome hv hname
  refine ⟨o, ho, ?_⟩
  rintro t rfl
  obtain ⟨item, hvisit⟩ := visit_of_list_next ho
  cases hv.symm.trans hvisit
  exact hgo _ _ rfl

theorem list_safe (hok : WalkOk bytes archive archiveSize) :
    SafeWalk (tarListBody (archiveMemory bytes archive archiveSize) (archive + archiveSize))
      ListState.p ⟨archive, [], []⟩ := by
  constructor
  · refine returns_of_measure (fun s => archive + archiveSize - s.p) fun s hs => ?_
    obtain ⟨o, ho, hgo⟩ := list_step hfit hok hs
    refine ⟨o, ho, fun t ht => ?_⟩
    have := hgo t ht
    have := visited_inside hfit hok hs
    omega
  · intro s t hs hstep
    obtain ⟨o, ho, hgo⟩ := list_step hfit hok hs
    exact (hgo t (Option.some.inj (ho.symm.trans hstep))).1

/-- `tar_find` visits headers that `tar_list` visits, and holds a long name whenever
`tar_list` does. -/
theorem find_follows (hok : WalkOk bytes archive archiveSize) {path : List Byte} {f : FindState}
    (hf : Visits (tarFindBody (archiveMemory bytes archive archiveSize) (archive + archiveSize) path)
      ⟨archive, []⟩ f) :
    ∃ s, Visits (tarListBody (archiveMemory bytes archive archiveSize) (archive + archiveSize))
        ⟨archive, [], []⟩ s ∧ s.p = f.p ∧ (f.longName = [] → s.longName = []) := by
  induction hf with
  | refl => exact ⟨_, Relation.ReflTransGen.refl, rfl, fun _ => rfl⟩
  | @tail f g hf hstep ih =>
      obtain ⟨s, hs, hp, -⟩ := ih
      obtain ⟨item, hvisit, hname⟩ := visit_of_find_next hstep
      rw [← hp] at hvisit
      obtain ⟨v, hv, -, hread⟩ := visit_of_ok hfit (visited_inside hfit hok hs).1 (hok s hs)
      cases hv.symm.trans hvisit
      cases item with
      | long name =>
          refine ⟨⟨g.p, name, s.lines⟩, hs.tail ?_, rfl, fun h => (hname name rfl).symm.trans h⟩
          rw [tarListBody_eq, hvisit]
          rfl
      | file hdr n typeflag =>
          obtain ⟨name, hfound⟩ := hread hdr n typeflag (Or.inr ⟨_, rfl⟩)
          refine ⟨⟨g.p, [], s.lines ++ [⟨hdr, typeflag, n, name⟩]⟩, hs.tail ?_, rfl, fun _ => rfl⟩
          simp only [tarListBody_eq, hvisit, hfound, Option.bind_some, Option.map_some]

theorem find_step (hok : WalkOk bytes archive archiveSize) {path : List Byte} {f : FindState}
    (hf : Visits (tarFindBody (archiveMemory bytes archive archiveSize) (archive + archiveSize) path)
      ⟨archive, []⟩ f) :
    ∃ o, tarFindBody (archiveMemory bytes archive archiveSize) (archive + archiveSize) path f = some o ∧
      ∀ g, o = .next g → f.p + 512 ≤ g.p ∧ g.p ≤ archive + archiveSize := by
  obtain ⟨s, hs, hp, hlong⟩ := find_follows hfit hok hf
  obtain ⟨v, hv, hgo, hname⟩ := visit_of_ok hfit (visited_inside hfit hok hs).1 (hok s hs)
  rw [hp] at hv hgo
  have hname' : ∀ hdr n t, (v = .last hdr n t ∨ ∃ p', v = .more (.file hdr n t) p') →
      ∃ name, nameOf (archiveMemory bytes archive archiveSize) f.longName hdr = some name := by
    intro hdr n t hfile
    by_cases hempty : f.longName = []
    · rw [hempty, ← hlong hempty]
      exact hname hdr n t hfile
    · exact ⟨_, if_pos hempty⟩
  obtain ⟨o, ho⟩ := find_body_isSome hv hname'
  refine ⟨o, ho, ?_⟩
  rintro g rfl
  obtain ⟨item, hvisit, -⟩ := visit_of_find_next ho
  cases hv.symm.trans hvisit
  exact hgo _ _ rfl

theorem find_safe (hok : WalkOk bytes archive archiveSize) (path : List Byte) :
    SafeWalk (tarFindBody (archiveMemory bytes archive archiveSize) (archive + archiveSize) path)
      FindState.p ⟨archive, []⟩ := by
  constructor
  · refine returns_of_measure (fun f => archive + archiveSize - f.p) fun f hf => ?_
    obtain ⟨o, ho, hgo⟩ := find_step hfit hok hf
    refine ⟨o, ho, fun g hg => ?_⟩
    have := hgo g hg
    omega
  · intro f g hf hstep
    obtain ⟨o, ho, hgo⟩ := find_step hfit hok hf
    exact (hgo g (Option.some.inj (ho.symm.trans hstep))).1

/-- A walk of `tar_list` that is safe meets only steps that are in order. -/
theorem walkOk_of_safe
    (h : SafeWalk (tarListBody (archiveMemory bytes archive archiveSize) (archive + archiveSize))
      ListState.p ⟨archive, [], []⟩) : WalkOk bytes archive archiveSize := by
  obtain ⟨⟨lines, hreturns⟩, hforward⟩ := h
  intro s hs
  have hinside : archive ≤ s.p ∧ s.p ≤ archive + archiveSize := by
    induction hs with
    | refl => exact ⟨le_rfl, Nat.le_add_right _ _⟩
    | @tail s t hs hstep ih =>
        obtain ⟨item, hvisit⟩ := visit_of_list_next hstep
        have := hforward s t hs hstep
        have := ((visit_spec hvisit).2 _ _ rfl).1.2
        omega
  have hvalue : ∃ o, tarListBody (archiveMemory bytes archive archiveSize) (archive + archiveSize) s =
      some o := by
    rcases (hreturns.of_visits hs).cases with hstop | ⟨t, hnext, -⟩
    · exact ⟨_, hstop⟩
    · exact ⟨_, hnext⟩
  obtain ⟨o, ho⟩ := hvalue
  refine stepOk_of_forward hfit hinside.1 hinside.2 ho ?_
  rintro t rfl
  exact hforward s t hs ho

end

/-- For every content, address and size of an archive below 4 GiB: `tar_list` and, for
every path, `tar_find` return, move forward by at least 512 in every iteration and read
only bytes of the archive, exactly if every header that `tar_list` reaches is in order. -/
theorem tar_walks_safe_iff (bytes : Nat → Byte) (archive archiveSize : Nat)
    (hfit : archive + archiveSize < 2 ^ 32) :
    (SafeWalk (tarListBody (archiveMemory bytes archive archiveSize) (wrap (archive + archiveSize)))
        ListState.p ⟨archive, [], []⟩ ∧
      ∀ path, SafeWalk (tarFindBody (archiveMemory bytes archive archiveSize)
        (wrap (archive + archiveSize)) path) FindState.p ⟨archive, []⟩) ↔
      WalkOk bytes archive archiveSize := by
  rw [wrap_of_lt hfit]
  exact ⟨fun h => walkOk_of_safe hfit h.1, fun hok => ⟨list_safe hfit hok, find_safe hfit hok⟩⟩

/-- A header at address 4096 with the name `a` and these digits of its size; all else is zero. -/
def headerBytes (digits : List Char) : Nat → Byte := fun a =>
  if a = 4096 then ascii 'a'
  else if 4220 ≤ a ∧ a < 4231 then (digits.map ascii).getD (a - 4220) 0#8
  else 0#8

/-- A file of two bytes in front of a block of zeros. -/
theorem tar_walks_safe_iff_demo :
    SafeWalk (tarListBody (archiveMemory (headerBytes "00000000002".toList) 4096 1536) (wrap (4096 + 1536)))
        ListState.p ⟨4096, [], []⟩ ∧
      ∀ path, SafeWalk (tarFindBody (archiveMemory (headerBytes "00000000002".toList) 4096 1536)
        (wrap (4096 + 1536)) path) FindState.p ⟨4096, []⟩ := by
  refine (tar_walks_safe_iff (headerBytes "00000000002".toList) 4096 1536 (by decide)).mpr fun s hs => ?_
  have hzero : headerIsZero (archiveMemory (headerBytes "00000000002".toList) 4096 1536) 5120 = some true := by
    decide +kernel
  have hvisited : s = ⟨4096, [], []⟩ ∨ s.p = 5120 := by
    induction hs with
    | refl => exact Or.inl rfl
    | @tail s t _ hstep ih =>
        rcases ih with rfl | hp
        · have hnext : (tarListBody (archiveMemory (headerBytes "00000000002".toList) 4096 1536) (4096 + 1536)
              ⟨4096, [], []⟩).map (fun o => match o with
                | .next t => t.p
                | .stop _ => 5120) = some 5120 := by decide +kernel
          rw [hstep] at hnext
          exact Or.inr (Option.some.inj hnext)
        · rw [tarListBody, hp, if_pos (by decide), hzero] at hstep
          cases hstep
  rcases hvisited with rfl | hp
  · refine fun _ => ⟨by decide, fun _ fsize typeflag hsize htype => ?_⟩
    have hsize' : tarParseOctal (archiveMemory (headerBytes "00000000002".toList) 4096 1536) (4096 + 124) 12 =
        some 2 := by decide +kernel
    cases hsize.symm.trans hsize'
    have htype' : load (archiveMemory (headerBytes "00000000002".toList) 4096 1536) (4096 + 156) = some 0#8 := by
      decide +kernel
    cases htype.symm.trans htype'
    exact ⟨fun hlong => absurd hlong (by decide), fun _ _ hdir => absurd rfl hdir, fun _ => by decide⟩
  · refine fun _ => ⟨by omega, fun hfull => ?_⟩
    rw [hp, hzero] at hfull
    cases hfull

/-- With the size `37777777000` the skip is 2^32 bytes, and `tar_list` stands still. -/
theorem tar_list_stands_still :
    ¬ ∀ (bytes : Nat → Byte) (archive archiveSize : Nat), archive + archiveSize < 2 ^ 32 →
      SafeWalk (tarListBody (archiveMemory bytes archive archiveSize) (wrap (archive + archiveSize)))
          ListState.p ⟨archive, [], []⟩ ∧
        ∀ path, SafeWalk (tarFindBody (archiveMemory bytes archive archiveSize)
          (wrap (archive + archiveSize)) path) FindState.p ⟨archive, []⟩ := by
  intro h
  obtain ⟨⟨-, hforward⟩, -⟩ := h (headerBytes "37777777000".toList) 4096 512 (by decide)
  have hstep : (tarListBody (archiveMemory (headerBytes "37777777000".toList) 4096 512) (wrap (4096 + 512))
      ⟨4096, [], []⟩).bind (fun o => match o with
        | .next t => some t.p
        | .stop _ => none) = some 4096 := by decide +kernel
  obtain ⟨o, ho, hp⟩ := Option.bind_eq_some_iff.mp hstep
  cases o with
  | stop lines => cases hp
  | next t =>
      have hback : t.p = 4096 := Option.some.inj hp
      have hmove : 4096 + 512 ≤ t.p := hforward _ t Relation.ReflTransGen.refl ho
      omega

end Frostix.Tar
