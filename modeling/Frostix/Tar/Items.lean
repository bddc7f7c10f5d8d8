import Frostix.Tar.Model

/-!
An archive as the sequence of its items, and the two walks as functions of it. Where
the walk goes depends on the headers alone, so `tar_list` and `tar_find` meet the same
items; they differ in which long name they hold when they come to a file. -/
namespace Frostix.Tar

open Machine32 Libc While

inductive Item where
  | long (name : List Byte)
  | file (hdr fsize : Nat) (typeflag : Byte)
  deriving DecidableEq

/-- What a walk finds at an address: the end, the last item, or an item and the
address of the next one. -/
inductive Visit where
  | done
  | last (hdr fsize : Nat) (typeflag : Byte)
  | more (item : Item) (p : Nat)

def visit (mem : Memory) (limit p : Nat) : Option Visit :=
  if wrap (p + 512) ≤ limit then do
    if ← headerIsZero mem p then return .done
    let fsize ← tarParseOctal mem (p + 124) 12
    let typeflag ← load mem (p + 156)
    if typeflag = ascii 'L' then
      match ← readLongName mem limit p fsize with
      | none => return .done
      | some (name, p') => return .more (.long name) p'
    else
      match advance limit p fsize with
      | none => return .last p fsize typeflag
      | some p' => return .more (.file p fsize typeflag) p'
  else return .done

/-- The items that a walk starting at an address meets before it ends. -/
inductive Items (mem : Memory) (limit : Nat) : Nat → List Item → Prop where
  | done {p : Nat} (h : visit mem limit p = some .done) : Items mem limit p []
  | last {p hdr fsize : Nat} {typeflag : Byte} (h : visit mem limit p = some (.last hdr fsize typeflag)) :
      Items mem limit p [.file hdr fsize typeflag]
  | more {p p' : Nat} {item : Item} {rest : List Item} (h : visit mem limit p = some (.more item p'))
      (hrest : Items mem limit p' rest) : Items mem limit p (item :: rest)

/-- `tar_list` uses a long name once. -/
def listLines (mem : Memory) : List Byte → List Item → Option (List Line)
  | _, [] => some []
  | _, .long name :: rest => listLines mem name rest
  | longName, .file hdr fsize typeflag :: rest => do
      let name ← nameOf mem longName hdr
      return ⟨hdr, typeflag, fsize, name⟩ :: (← listLines mem [] rest)

/-- `tar_find` keeps a long name until the next one. -/
def findIn (mem : Memory) (path : List Byte) : List Byte → List Item → Option (Option (Nat × Nat))
  | _, [] => some none
  | _, .long name :: rest => findIn mem path name rest
  | longName, .file hdr fsize typeflag :: rest => do
      let name ← nameOf mem longName hdr
      if isRegular typeflag ∧ name = path then return some (wrap (hdr + 512), fsize)
      findIn mem path longName rest

/-- An iteration of `tar_list`, by what it visits. -/
theorem tarListBody_eq (mem : Memory) (limit : Nat) (s : ListState) :
    tarListBody mem limit s = (visit mem limit s.p).bind fun v =>
      match v with
      | .done => some (.stop s.lines)
      | .last hdr fsize typeflag => (nameOf mem s.longName hdr).map fun name =>
          .stop (s.lines ++ [⟨hdr, typeflag, fsize, name⟩])
      | .more (.long longName) p => some (.next { s with p, longName })
      | .more (.file hdr fsize typeflag) p => (nameOf mem s.longName hdr).map fun name =>
          .next { p, longName := [], lines := s.lines ++ [⟨hdr, typeflag, fsize, name⟩] } := by
  unfold tarListBody visit
  by_cases hroom : wrap (s.p + 512) ≤ limit
  · rw [if_pos hroom, if_pos hroom]
    cases headerIsZero mem s.p with
    | none => rfl
    | some zero =>
        cases zero with
        | true => rfl
        | false =>
            cases tarParseOctal mem (s.p + 124) 12 with
            | none => rfl
            | some fsize =>
                cases load mem (s.p + 156) with
                | none => rfl
                | some typeflag =>
                    simp only [Option.bind_eq_bind, Option.bind_some, Bool.false_eq_true, if_false]
                    by_cases hlong : typeflag = ascii 'L'
                    · simp only [if_pos hlong]
                      cases readLongName mem limit s.p fsize with
                      | none => rfl
                      | some res =>
                          cases res with
                          | none => rfl
                          | some np => rfl
                    · simp only [if_neg hlong]
                      cases advance limit s.p fsize <;> simp only [Option.pure_def, Option.bind_some] <;>
                        cases nameOf mem s.longName s.p <;> rfl
  · rw [if_neg hroom, if_neg hroom]
    rfl

/-- An iteration of `tar_find`, by what it visits. -/
theorem tarFindBody_eq (mem : Memory) (limit : Nat) (path : List Byte) (s : FindState) :
    tarFindBody mem limit path s = (visit mem limit s.p).bind fun v =>
      match v with
      | .done => some (.stop none)
      | .last hdr fsize typeflag => (nameOf mem s.longName hdr).map fun name =>
          if isRegular typeflag ∧ name = path then .stop (some (wrap (hdr + 512), fsize))
          else .stop none
      | .more (.long longName) p => some (.next { p, longName })
      | .more (.file hdr fsize typeflag) p => (nameOf mem s.longName hdr).map fun name =>
          if isRegular typeflag ∧ name = path then .stop (some (wrap (hdr + 512), fsize))
          else .next { s with p } := by
  unfold tarFindBody visit
  by_cases hroom : wrap (s.p + 512) ≤ limit
  · rw [if_pos hroom, if_pos hroom]
    cases headerIsZero mem s.p with
    | none => rfl
    | some zero =>
        cases zero with
        | true => rfl
        | false =>
            cases tarParseOctal mem (s.p + 124) 12 with
            | none => rfl
            | some fsize =>
                cases load mem (s.p + 156) with
                | none => rfl
                | some typeflag =>
                    simp only [Option.bind_eq_bind, Option.bind_some, Bool.false_eq_true, if_false]
                    by_cases hlong : typeflag = ascii 'L'
                    · simp only [if_pos hlong]
                      cases readLongName mem limit s.p fsize with
                      | none => rfl
                      | some res =>
                          cases res with
                          | none => rfl
                          | some np => rfl
                    · simp only [if_neg hlong]
                      cases advance limit s.p fsize <;> simp only [Option.pure_def, Option.bind_some] <;>
                        cases nameOf mem s.longName s.p <;>
                        simp only [Option.bind_none, Option.bind_some, Option.map_none, Option.map_some] <;>
                        split_ifs <;> rfl
  · rw [if_neg hroom, if_neg hroom]
    rfl

theorem visit_of_list_next {mem : Memory} {limit : Nat} {s t : ListState}
    (h : tarListBody mem limit s = some (.next t)) :
    ∃ item, visit mem limit s.p = some (.more item t.p) := by
  rw [tarListBody_eq] at h
  obtain ⟨v, hv, hout⟩ := Option.bind_eq_some_iff.mp h
  rcases v with _ | ⟨hdr, n, typeflag⟩ | ⟨_ | ⟨hdr, n, typeflag⟩, p⟩
  · cases hout
  · obtain ⟨name, -, hname⟩ := Option.map_eq_some_iff.mp hout
    cases hname
  · cases hout
    exact ⟨_, hv⟩
  · obtain ⟨name, -, hname⟩ := Option.map_eq_some_iff.mp hout
    cases hname
    exact ⟨_, hv⟩

theorem visit_of_find_next {mem : Memory} {limit : Nat} {path : List Byte} {f g : FindState}
    (h : tarFindBody mem limit path f = some (.next g)) :
    ∃ item, visit mem limit f.p = some (.more item g.p) ∧ ∀ name, item = .long name → g.longName = name := by
  rw [tarFindBody_eq] at h
  obtain ⟨v, hv, hout⟩ := Option.bind_eq_some_iff.mp h
  rcases v with _ | ⟨hdr, n, typeflag⟩ | ⟨name | ⟨hdr, n, typeflag⟩, p⟩
  · cases hout
  · obtain ⟨name, -, hname⟩ := Option.map_eq_some_iff.mp hout
    split_ifs at hname
  · cases hout
    refine ⟨_, hv, fun name' heq => ?_⟩
    cases heq
    rfl
  · obtain ⟨name, -, hname⟩ := Option.map_eq_some_iff.mp hout
    split_ifs at hname
    cases hname
    exact ⟨_, hv, nofun⟩

/-- An iteration of `tar_find` that can read what it visits has a value. -/
theorem find_body_isSome {mem : Memory} {limit : Nat} {path : List Byte} {f : FindState} {v : Visit}
    (hv : visit mem limit f.p = some v) (hname : ∀ hdr n t, (v = .last hdr n t ∨
      ∃ p', v = .more (.file hdr n t) p') → ∃ name, nameOf mem f.longName hdr = some name) :
    ∃ o, tarFindBody mem limit path f = some o := by
  rw [tarFindBody_eq, hv]
  rcases v with _ | ⟨hdr, n, typeflag⟩ | ⟨_ | ⟨hdr, n, typeflag⟩, p⟩
  · exact ⟨_, rfl⟩
  · obtain ⟨name, hname⟩ := hname hdr n typeflag (Or.inl rfl)
    exact ⟨_, by simp only [hname, Option.bind_some, Option.map_some]; rfl⟩
  · exact ⟨_, rfl⟩
  · obtain ⟨name, hname⟩ := hname hdr n typeflag (Or.inr ⟨p, rfl⟩)
    exact ⟨_, by simp only [hname, Option.bind_some, Option.map_some]; rfl⟩

/-- An iteration of `tar_list` that can read what it visits has a value. -/
theorem list_body_isSome {mem : Memory} {limit : Nat} {s : ListState} {v : Visit}
    (hv : visit mem limit s.p = some v) (hname : ∀ hdr n t, (v = .last hdr n t ∨
      ∃ p', v = .more (.file hdr n t) p') → ∃ name, nameOf mem s.longName hdr = some name) :
    ∃ o, tarListBody mem limit s = some o := by
  rw [tarListBody_eq, hv]
  rcases v with _ | ⟨hdr, n, typeflag⟩ | ⟨_ | ⟨hdr, n, typeflag⟩, p⟩
  · exact ⟨_, rfl⟩
  · obtain ⟨name, hname⟩ := hname hdr n typeflag (Or.inl rfl)
    exact ⟨_, by simp only [hname, Option.bind_some, Option.map_some]; rfl⟩
  · exact ⟨_, rfl⟩
  · obtain ⟨name, hname⟩ := hname hdr n typeflag (Or.inr ⟨p, rfl⟩)
    exact ⟨_, by simp only [hname, Option.bind_some, Option.map_some]; rfl⟩

section
variable {mem : Memory} {limit : Nat}

theorem advance_le {p fsize p' : Nat} (h : advance limit p fsize = some p') :
    p' < 2 ^ 32 ∧ p' ≤ limit := by
  unfold advance at h
  dsimp only at h
  split_ifs at h with hle
  cases h
  exact ⟨wrap_lt _, not_lt.mp hle⟩

theorem readLongName_le {p fsize p' : Nat} {name : List Byte}
    (h : readLongName mem limit p fsize = some (some (name, p'))) : p' < 2 ^ 32 ∧ p' ≤ limit := by
  unfold readLongName at h
  dsimp only at h
  split_ifs at h
  · cases h
  · obtain ⟨copied, -, hadv⟩ := Option.map_eq_some_iff.mp h
    obtain ⟨q, hq, hpair⟩ := Option.map_eq_some_iff.mp hadv
    cases hpair
    exact advance_le hq

/-- A file is visited at its header, and the next address is a 32-bit word up to the end. -/
theorem visit_spec {p : Nat} {v : Visit} (h : visit mem limit p = some v) :
    (∀ hdr fsize typeflag, v = .last hdr fsize typeflag → hdr = p) ∧
    (∀ item p', v = .more item p' →
      (p' < 2 ^ 32 ∧ p' ≤ limit) ∧ ∀ hdr fsize typeflag, item = .file hdr fsize typeflag → hdr = p) := by
  unfold visit at h
  split_ifs at h with hroom
  · obtain ⟨zero, -, h⟩ := Option.bind_eq_some_iff.mp h
    cases zero with
    | true =>
        cases h
        exact ⟨nofun, nofun⟩
    | false =>
        obtain ⟨fsize, -, h⟩ := Option.bind_eq_some_iff.mp h
        obtain ⟨typeflag, -, h⟩ := Option.bind_eq_some_iff.mp h
        split_ifs at h with hlong
        · obtain ⟨res, hres, h⟩ := Option.bind_eq_some_iff.mp h
          cases res with
          | none =>
              cases h
              exact ⟨nofun, nofun⟩
          | some found =>
              cases h
              refine ⟨nofun, fun item p' heq => ?_⟩
              cases heq
              exact ⟨readLongName_le hres, nofun⟩
        · cases hadv : advance limit p fsize with
          | none =>
              rw [hadv] at h
              cases h
              refine ⟨fun hdr n t heq => ?_, nofun⟩
              cases heq
              rfl
          | some q =>
              rw [hadv] at h
              cases h
              refine ⟨nofun, fun item p' heq => ?_⟩
              cases heq
              refine ⟨advance_le hadv, fun hdr n t hitem => ?_⟩
              cases hitem
              rfl
  · cases h
    exact ⟨nofun, nofun⟩

theorem Items.unique {p : Nat} {a b : List Item} (ha : Items mem limit p a) (hb : Items mem limit p b) :
    a = b := by
  induction ha generalizing b with
  | done h =>
      cases hb with
      | done _ => rfl
      | last h' => exact absurd (h.symm.trans h') (by simp)
      | more h' _ => exact absurd (h.symm.trans h') (by simp)
  | last h =>
      cases hb with
      | done h' => exact absurd (h.symm.trans h') (by simp)
      | last h' =>
          cases h.symm.trans h'
          rfl
      | more h' _ => exact absurd (h.symm.trans h') (by simp)
  | more h _ ih =>
      cases hb with
      | done h' => exact absurd (h.symm.trans h') (by simp)
      | last h' => exact absurd (h.symm.trans h') (by simp)
      | more h' hrest =>
          cases h.symm.trans h'
          rw [ih hrest]

theorem Items.at_file {p : Nat} {items : List Item} (h : Items mem limit p items) (hp : p < 2 ^ 32)
    {hdr fsize : Nat} {typeflag : Byte} (hmem : .file hdr fsize typeflag ∈ items) :
    hdr < 2 ^ 32 ∧ ∃ rest, Items mem limit hdr rest ∧ rest.length ≤ items.length := by
  induction h with
  | done _ => cases hmem
  | last hv =>
      obtain ⟨rfl, rfl, rfl⟩ := by simpa using hmem
      cases (visit_spec hv).1 _ _ _ rfl
      exact ⟨hp, _, .last hv, le_rfl⟩
  | @more p p' item rest hv hrest ih =>
      obtain ⟨⟨hp', -⟩, hhdr⟩ := (visit_spec hv).2 _ _ rfl
      rcases List.mem_cons.mp hmem with hitem | hlater
      · cases hhdr _ _ _ hitem.symm
        exact ⟨hp, _, .more hv hrest, le_rfl⟩
      · obtain ⟨hlt, rest', hfrom, hle⟩ := ih hp' hlater
        exact ⟨hlt, rest', hfrom, hle.trans (Nat.le_succ _)⟩

theorem Items.not_again {p p' : Nat} {item : Item} {rest : List Item}
    (hv : visit mem limit p = some (.more item p')) (hrest : Items mem limit p' rest) {hdr fsize : Nat}
    {typeflag : Byte} (hmem : .file hdr fsize typeflag ∈ rest) : hdr ≠ p ∧ hdr < 2 ^ 32 := by
  obtain ⟨hlt, again, hfrom, hle⟩ := hrest.at_file ((visit_spec hv).2 _ _ rfl).1.1 hmem
  refine ⟨?_, hlt⟩
  rintro rfl
  have hsame := congrArg List.length (hfrom.unique (Items.more hv hrest))
  rw [List.length_cons] at hsame
  omega

/-- `tar_list` that returns has met the items and printed their lines. -/
theorem items_of_tarList {s : ListState} {lines : List Line}
    (h : Returns (tarListBody mem limit) s lines) :
    ∃ items printed, Items mem limit s.p items ∧ listLines mem s.longName items = some printed ∧
      lines = s.lines ++ printed := by
  refine h.induction (motive := fun s lines => ∃ items printed, Items mem limit s.p items ∧
    listLines mem s.longName items = some printed ∧ lines = s.lines ++ printed) ?_ ?_
  · intro s lines hbody
    rw [tarListBody_eq] at hbody
    obtain ⟨v, hv, hout⟩ := Option.bind_eq_some_iff.mp hbody
    cases v with
    | done =>
        cases hout
        exact ⟨[], [], .done hv, rfl, by simp⟩
    | last hdr fsize typeflag =>
        obtain ⟨name, hname, hline⟩ := Option.map_eq_some_iff.mp hout
        cases hline
        exact ⟨_, [⟨hdr, typeflag, fsize, name⟩], .last hv, by simp [listLines, hname], rfl⟩
    | more item p =>
        cases item with
        | long name => cases hout
        | file hdr fsize typeflag =>
            obtain ⟨name, hname, hline⟩ := Option.map_eq_some_iff.mp hout
            cases hline
  · intro s t lines hbody _ ih
    obtain ⟨items, printed, hitems, hprinted, rfl⟩ := ih
    rw [tarListBody_eq] at hbody
    obtain ⟨v, hv, hout⟩ := Option.bind_eq_some_iff.mp hbody
    cases v with
    | done => cases hout
    | last hdr fsize typeflag =>
        obtain ⟨name, hname, hline⟩ := Option.map_eq_some_iff.mp hout
        cases hline
    | more item p =>
        cases item with
        | long name =>
            cases hout
            exact ⟨_, printed, .more hv hitems, hprinted, rfl⟩
        | file hdr fsize typeflag =>
            obtain ⟨name, hname, hline⟩ := Option.map_eq_some_iff.mp hout
            cases hline
            refine ⟨_, ⟨hdr, typeflag, fsize, name⟩ :: printed, .more hv hitems, ?_, by simp⟩
            simp [listLines, hname, hprinted]

/-- `tar_find` over an archive with these items returns what the search of the items
returns. -/
theorem tarFind_items_iff {p : Nat} {items : List Item} (h : Items mem limit p items)
    {path longName : List Byte} {r : Option (Nat × Nat)} :
    Returns (tarFindBody mem limit path) ⟨p, longName⟩ r ↔ findIn mem path longName items = some r := by
  induction h generalizing longName with
  | @done p hv =>
      have hbody : tarFindBody mem limit path ⟨p, longName⟩ = some (.stop none) := by
        rw [tarFindBody_eq, hv]
        rfl
      rw [returns_stop_iff hbody, findIn, Option.some.injEq]
  | @last p hdr fsize typeflag hv =>
      cases hname : nameOf mem longName hdr with
      | none =>
          have hbody : tarFindBody mem limit path ⟨p, longName⟩ = none := by
            simp [tarFindBody_eq, hv, hname]
          simp [findIn, hname, not_returns_of_none hbody]
      | some name =>
          by_cases hmatch : isRegular typeflag = true ∧ name = path
          · have hbody : tarFindBody mem limit path ⟨p, longName⟩ =
                some (.stop (some (wrap (hdr + 512), fsize))) := by
              simp [tarFindBody_eq, hv, hname, hmatch]
            rw [returns_stop_iff hbody]
            simp [findIn, hname, hmatch]
          · have hbody : tarFindBody mem limit path ⟨p, longName⟩ = some (.stop none) := by
              simp [tarFindBody_eq, hv, hname, hmatch]
            rw [returns_stop_iff hbody]
            simp [findIn, hname, hmatch]
  | @more p p' item rest hv _ ih =>
      cases item with
      | long name =>
          have hbody : tarFindBody mem limit path ⟨p, longName⟩ = some (.next ⟨p', name⟩) := by
            rw [tarFindBody_eq, hv]
            rfl
          rw [returns_next_iff hbody, findIn, ih]
      | file hdr fsize typeflag =>
          cases hname : nameOf mem longName hdr with
          | none =>
              have hbody : tarFindBody mem limit path ⟨p, longName⟩ = none := by
                simp [tarFindBody_eq, hv, hname]
              simp [findIn, hname, not_returns_of_none hbody]
          | some name =>
              by_cases hmatch : isRegular typeflag = true ∧ name = path
              · have hbody : tarFindBody mem limit path ⟨p, longName⟩ =
                    some (.stop (some (wrap (hdr + 512), fsize))) := by
                  simp [tarFindBody_eq, hv, hname, hmatch]
                rw [returns_stop_iff hbody]
                simp [findIn, hname, hmatch]
              · have hbody : tarFindBody mem limit path ⟨p, longName⟩ = some (.next ⟨p', longName⟩) := by
                  simp [tarFindBody_eq, hv, hname, hmatch]
                rw [returns_next_iff hbody, ih]
                simp [findIn, hname, hmatch]

end

end Frostix.Tar
