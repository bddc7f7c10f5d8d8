import Frostix.Acpi.Model

/-!
When the ACPI code stays inside its tables. The number of entries comes from a length
that is not compared with the size of the header, the cache has fewer places than a table
may have entries, and a lookup that misses the cache follows every entry, whether or not
its table was mapped. -/
namespace Frostix.Acpi
open Machine32 ByteMemory

variable {σ : Type}

/-- The state that `acpi_init` leaves, with the entries counted right: every lookup ends
without an access that it must not make. -/
def LooksUp (p : Platform σ) (env : σ) (ctx : AcpiContext) (sdt : Sdt) : Prop :=
  ctx.numEntries * ctx.entrySize + sizeofHeader ≤ sdt.len ∧
    ∀ sig < 2 ^ 32, ∃ r, acpiGetTable p env ctx sig = .ok r

/-- `acpi_init` reads entries of the root table only, and every lookup after it is fine. -/
def Meets (p : Platform σ) (env : σ) (sdt : Sdt) : Prop :=
  ∃ ctx env', acpiInit p env = .ok (ctx, env') ∧ LooksUp p env' ctx sdt

/-- There is no cache or a place in it for every entry, and the tables of all entries
below 4 GiB are mapped. -/
structure Tame (p : Platform σ) (env : σ) (ctx : AcpiContext) : Prop where
  few : ctx.tables = none ∨ ctx.numEntries ≤ maxTables
  mapped : ∀ i < ctx.numEntries, ctx.entry p.mem i ≤ uint32Max → tableMapped p env (ctx.entry p.mem i) = true

section Lookup

variable {p : Platform σ} {env : σ} {ctx : AcpiContext} {tables : Vector Nat 32} {sig : Nat}

theorem searchCache_ok (left i : Nat) (hfew : i + left ≤ maxTables)
    (hmapped : ∀ (j : Nat) (hj : j < 32), tables[j] ≠ 0 → tableMapped p env tables[j] = true) :
    ∃ r, searchCache p env tables sig left i = .ok r := by
  induction left generalizing i with
  | zero => exact ⟨0, rfl⟩
  | succ left ih =>
      unfold maxTables at hfew
      have hi : i < 32 := by omega
      have hrest := ih (i + 1) (by unfold maxTables; omega)
      rw [searchCache, dif_pos hi]
      by_cases hzero : tables[i] = 0
      · rw [if_pos hzero]
        exact hrest
      rw [if_neg hzero, if_neg (by rw [hmapped i hi hzero]; nofun)]
      by_cases hsig : load32 p.mem tables[i] = sig
      · exact ⟨_, if_pos hsig⟩
      · rw [if_neg hsig]
        exact hrest

theorem searchCache_leaves (left i : Nat) (hi : i ≤ maxTables) (hmany : maxTables < i + left)
    (hsig : ∀ (j : Nat) (hj : j < 32), load32 p.mem tables[j] ≠ sig) (r : Nat) :
    searchCache p env tables sig left i ≠ .ok r := by
  induction left generalizing i with
  | zero => omega
  | succ left ih =>
      unfold maxTables at hi hmany
      rw [searchCache]
      by_cases hlt : i < 32
      · have hrest := ih (i + 1) (by unfold maxTables; omega) (by unfold maxTables; omega)
        rw [dif_pos hlt]
        by_cases hzero : tables[i] = 0
        · rw [if_pos hzero]
          exact hrest
        rw [if_neg hzero]
        by_cases hmap : tableMapped p env tables[i] = false
        · rw [if_pos hmap]
          nofun
        · rw [if_neg hmap, if_neg (hsig i hlt)]
          exact hrest
      · rw [dif_neg hlt]
        nofun

theorem searchCache_misses (left i : Nat)
    (hsig : ∀ (j : Nat) (hj : j < 32), load32 p.mem tables[j] ≠ sig) {r : Nat}
    (h : searchCache p env tables sig left i = .ok r) : r = 0 := by
  induction left generalizing i with
  | zero =>
      cases h
      rfl
  | succ left ih =>
      rw [searchCache] at h
      by_cases hlt : i < 32
      · rw [dif_pos hlt] at h
        by_cases hzero : tables[i] = 0
        · rw [if_pos hzero] at h
          exact ih _ h
        rw [if_neg hzero] at h
        by_cases hmap : tableMapped p env tables[i] = false
        · rw [if_pos hmap] at h
          cases h
        · rw [if_neg hmap, if_neg (hsig i hlt)] at h
          exact ih _ h
      · rw [dif_neg hlt] at h
        cases h

theorem readEntry_of_inside {i : Nat} (h : sizeofHeader + (i + 1) * ctx.entrySize ≤ ctx.sdtLength p.mem) :
    readEntry p.mem ctx i = .ok (ctx.entry p.mem i) := if_pos h

theorem walkEntries_ok (left i : Nat)
    (hinside : ∀ j, i ≤ j → j < i + left → sizeofHeader + (j + 1) * ctx.entrySize ≤ ctx.sdtLength p.mem)
    (hmapped : ∀ j, i ≤ j → j < i + left → ctx.entry p.mem j ≤ uint32Max →
      tableMapped p env (ctx.entry p.mem j) = true) :
    ∃ r, walkEntries p env ctx sig left i = .ok r := by
  induction left generalizing i with
  | zero => exact ⟨0, rfl⟩
  | succ left ih =>
      have hrest := ih (i + 1) (fun j hlo hhi => hinside j (by omega) (by omega))
        (fun j hlo hhi => hmapped j (by omega) (by omega))
      rw [walkEntries, readEntry_of_inside (hinside i le_rfl (by omega))]
      simp only [bind, Except.bind]
      by_cases hhigh : uint32Max < ctx.entry p.mem i
      · rw [if_pos hhigh]
        exact hrest
      rw [if_neg hhigh, if_neg (by rw [hmapped i le_rfl (by omega) (not_lt.mp hhigh)]; nofun)]
      split_ifs
      · exact ⟨_, rfl⟩
      · exact hrest

/-- A signature that no entry has leads through all of them. -/
theorem walkEntries_all (left i : Nat)
    (hsig : ∀ j, i ≤ j → j < i + left → load32 p.mem (ctx.entry p.mem j) ≠ sig) {r : Nat}
    (h : walkEntries p env ctx sig left i = .ok r) :
    ∀ j, i ≤ j → j < i + left → ctx.entry p.mem j ≤ uint32Max →
      tableMapped p env (ctx.entry p.mem j) = true := by
  induction left generalizing i with
  | zero =>
      intro j hlo hhi
      omega
  | succ left ih =>
      rw [walkEntries] at h
      cases hread : readEntry p.mem ctx i with
      | error e =>
          rw [hread] at h
          cases h
      | ok a =>
          obtain rfl : ctx.entry p.mem i = a := by
            unfold readEntry at hread
            split_ifs at hread
            exact Except.ok.inj hread
          rw [hread] at h
          simp only [bind, Except.bind] at h
          have hfirst : (ctx.entry p.mem i ≤ uint32Max → tableMapped p env (ctx.entry p.mem i) = true) ∧
              walkEntries p env ctx sig left (i + 1) = .ok r := by
            by_cases hhigh : uint32Max < ctx.entry p.mem i
            · rw [if_pos hhigh] at h
              exact ⟨fun hle => absurd hle (not_le.mpr hhigh), h⟩
            rw [if_neg hhigh] at h
            by_cases hmap : tableMapped p env (ctx.entry p.mem i) = false
            · rw [if_pos hmap] at h
              cases h
            rw [if_neg hmap, if_neg fun hmatch => hsig i le_rfl (by omega) hmatch.2] at h
            exact ⟨fun _ => by rwa [Bool.not_eq_false] at hmap, h⟩
          have hrest := ih (i + 1) (fun j hlo hhi => hsig j (by omega) (by omega)) hfirst.2
          intro j hlo hhi
          rcases Nat.eq_or_lt_of_le hlo with rfl | hlt
          · exact hfirst.1
          · exact hrest j hlt (by omega)

end Lookup

theorem exists_word_notMem (l : List Nat) (h : l.length < 2 ^ 32) : ∃ k < 2 ^ 32, k ∉ l := by
  by_contra hall
  push Not at hall
  have hsub : Finset.range (2 ^ 32) ⊆ l.toFinset :=
    fun k hk => List.mem_toFinset.mpr (hall k (Finset.mem_range.mp hk))
  have hcard := (Finset.card_le_card hsub).trans l.toFinset_card_le
  rw [Finset.card_range] at hcard
  omega

section Init

variable {p : Platform σ} {env env₁ : σ} {sdt : Sdt} {rsdp : Nat}

theorem findRsdpFrom_ne_zero {m : Mem} (left ptr : Nat) (hptr : ptr ≠ 0) {a : Nat}
    (h : findRsdpFrom m left ptr = some a) : a ≠ 0 := by
  induction left generalizing ptr with
  | zero => cases h
  | succ left ih =>
      rw [findRsdpFrom] at h
      split_ifs at h
      · cases h
        exact hptr
      · exact ih _ (by omega) h

theorem acpiFindRsdp_ne_zero {m : Mem} {a : Nat} (h : acpiFindRsdp m = some a) : a ≠ 0 := by
  unfold acpiFindRsdp at h
  dsimp only at h
  rcases Option.or_eq_some_iff.mp h with hfirst | ⟨-, hbios⟩
  · split_ifs at hfirst with hebda
    exact findRsdpFrom_ne_zero _ _ hebda hfirst
  · exact findRsdpFrom_ne_zero _ _ (by decide) hbios

theorem openSdt_spec (h : openSdt p env = (some sdt, rsdp, env₁)) :
    rsdp ≠ 0 ∧ sdt.len = load32 p.mem (wrap (sdt.phys + 4)) := by
  unfold openSdt at h
  cases hfind : acpiFindRsdp p.mem with
  | none =>
      rw [hfind] at h
      cases h
  | some a =>
      rw [hfind] at h
      dsimp only at h
      cases hsdt : sdtAddress p.mem a with
      | none =>
          rw [hsdt] at h
          cases h
      | some addr =>
          rw [hsdt] at h
          dsimp only at h
          split_ifs at h <;> cases h <;> exact ⟨acpiFindRsdp_ne_zero hfind, rfl⟩

theorem setSdt_length (ctx : AcpiContext) (hlen : sdt.len = load32 p.mem (wrap (sdt.phys + 4))) :
    (ctx.setSdt sdt).sdtLength p.mem = sdt.len := by
  have haddr : wsub (wrap (sdt.phys + sizeofHeader)) 32 = wrap (sdt.phys + 4) := by
    unfold wsub wrap sizeofHeader
    omega
  rw [hlen, ← haddr]
  rfl

theorem setSdt_size (ctx : AcpiContext) : 4 ≤ (ctx.setSdt sdt).entrySize ∧ (ctx.setSdt sdt).entrySize ≤ 8 := by
  unfold AcpiContext.setSdt
  dsimp only
  split_ifs <;> decide

theorem setSdt_entries (ctx : AcpiContext) (hheader : sdt.len = load32 p.mem (wrap (sdt.phys + 4)))
    (hlen : sizeofHeader ≤ sdt.len) :
    (ctx.setSdt sdt).numEntries * (ctx.setSdt sdt).entrySize + sizeofHeader ≤ sdt.len ∧
      (∀ i < (ctx.setSdt sdt).numEntries,
        sizeofHeader + (i + 1) * (ctx.setSdt sdt).entrySize ≤ (ctx.setSdt sdt).sdtLength p.mem) ∧
      (ctx.setSdt sdt).numEntries < 2 ^ 30 := by
  have hlength : (ctx.setSdt sdt).sdtLength p.mem = sdt.len := setSdt_length _ hheader
  obtain ⟨hsize, -⟩ := @setSdt_size sdt ctx
  have hword : sdt.len < 2 ^ 32 := hheader ▸ load32_lt _ _
  have hnumber : (ctx.setSdt sdt).numEntries = (sdt.len - sizeofHeader) / (ctx.setSdt sdt).entrySize := by
    change wsub sdt.len sizeofHeader / (ctx.setSdt sdt).entrySize = _
    rw [wsub_of_le hword hlen]
  have hfits : (ctx.setSdt sdt).numEntries * (ctx.setSdt sdt).entrySize + sizeofHeader ≤ sdt.len := by
    have hmul := Nat.div_mul_le_self (sdt.len - sizeofHeader) (ctx.setSdt sdt).entrySize
    rw [← hnumber] at hmul
    omega
  refine ⟨hfits, fun i hi => ?_, ?_⟩
  · have hmul : (i + 1) * (ctx.setSdt sdt).entrySize ≤
        (ctx.setSdt sdt).numEntries * (ctx.setSdt sdt).entrySize := Nat.mul_le_mul_right _ hi
    rw [hlength]
    omega
  · rw [hnumber]
    exact (Nat.div_lt_iff_lt_mul (by omega)).mpr (by omega)

theorem loadTable_low {tablePhys : Nat} (h : (loadTable p env tablePhys).1 = true) : tablePhys ≤ uint32Max := by
  unfold loadTable at h
  by_contra hhigh
  rw [if_pos (not_le.mp hhigh)] at h
  cases h

/-- With entries inside the root table the loop ends, and the cache holds entries. -/
theorem cacheTables_spec {ctx : AcpiContext} (left i cached : Nat) (tables : Vector Nat 32) (env : σ)
    (hinside : ∀ j, i ≤ j → j < i + left → sizeofHeader + (j + 1) * ctx.entrySize ≤ ctx.sdtLength p.mem) :
    ∃ tables' env', cacheTables p ctx left i cached tables env = .ok (tables', env') ∧
      ∀ (j : Nat) (hj : j < 32), tables'[j] = tables[j] ∨
        ∃ k, i ≤ k ∧ k < i + left ∧ tables'[j] = ctx.entry p.mem k ∧ ctx.entry p.mem k ≤ uint32Max := by
  induction left generalizing i cached tables env with
  | zero => exact ⟨tables, env, rfl, fun _ _ => Or.inl rfl⟩
  | succ left ih =>
      rw [cacheTables]
      by_cases hroom : cached < 32
      · rw [dif_pos hroom, readEntry_of_inside (hinside i le_rfl (by omega))]
        simp only [bind, Except.bind]
        have hinside' : ∀ j, i + 1 ≤ j → j < i + 1 + left →
            sizeofHeader + (j + 1) * ctx.entrySize ≤ ctx.sdtLength p.mem :=
          fun j hlo hhi => hinside j (by omega) (by omega)
        by_cases hvalid : (loadTable p env (ctx.entry p.mem i)).1 = true
        · rw [if_pos hvalid]
          obtain ⟨tables', env', hrun, hslots⟩ :=
            ih (i + 1) (cached + 1) (tables.set cached (ctx.entry p.mem i))
            (loadTable p env (ctx.entry p.mem i)).2 hinside'
          refine ⟨tables', env', hrun, fun j hj => ?_⟩
          rcases hslots j hj with hsame | ⟨k, hlo, hhi, hk⟩
          · by_cases hjc : cached = j
            · subst hjc
              rw [Vector.getElem_set_self] at hsame
              exact Or.inr ⟨i, le_rfl, by omega, hsame, loadTable_low hvalid⟩
            · rw [Vector.getElem_set_ne _ _ hjc] at hsame
              exact Or.inl hsame
          · exact Or.inr ⟨k, by omega, by omega, hk⟩
        · rw [if_neg hvalid]
          obtain ⟨tables', env', hrun, hslots⟩ := ih (i + 1) cached tables
            (loadTable p env (ctx.entry p.mem i)).2 hinside'
          refine ⟨tables', env', hrun, fun j hj => (hslots j hj).imp_right ?_⟩
          rintro ⟨k, hlo, hhi, hk⟩
          exact ⟨k, by omega, by omega, hk⟩
      · rw [dif_neg hroom]
        exact ⟨tables, env, rfl, fun _ _ => Or.inl rfl⟩

end Init

/-- A context whose entries all lie in the root table, and whose cache holds entries. -/
structure Entered (p : Platform σ) (sdt : Sdt) (ctx : AcpiContext) : Prop where
  rsdp : ctx.rsdp ≠ 0
  fits : ctx.numEntries * ctx.entrySize + sizeofHeader ≤ sdt.len
  inside : ∀ i < ctx.numEntries, sizeofHeader + (i + 1) * ctx.entrySize ≤ ctx.sdtLength p.mem
  number : ctx.numEntries < 2 ^ 30
  slots : ∀ tables, ctx.tables = some tables → ∀ (j : Nat) (hj : j < 32), tables[j] ≠ 0 →
    ∃ i < ctx.numEntries, tables[j] = ctx.entry p.mem i ∧ ctx.entry p.mem i ≤ uint32Max

section Meeting

variable {p : Platform σ} {env env₁ : σ} {sdt : Sdt} {rsdp : Nat}

/-- Lookups in such a context are fine exactly if it is tame. -/
theorem Entered.looksUp_iff {ctx : AcpiContext} (h : Entered p sdt ctx) :
    LooksUp p env ctx sdt ↔ Tame p env ctx := by
  constructor
  · rintro ⟨-, hall⟩
    -- a signature that neither the cache nor an entry has
    let cachedTags := (ctx.tables.toList.flatMap Vector.toList).map (load32 p.mem)
    let entryTags := (List.range ctx.numEntries).map fun i => load32 p.mem (ctx.entry p.mem i)
    have hlen : (cachedTags ++ entryTags).length < 2 ^ 32 := by
      have hnumber := h.number
      cases htables : ctx.tables <;> simp [cachedTags, entryTags, htables] <;> omega
    obtain ⟨sig, hsig, hnew⟩ := exists_word_notMem _ hlen
    obtain ⟨hcached, hentries⟩ := not_or.mp (mt List.mem_append.mpr hnew)
    have hentry : ∀ j, 0 ≤ j → j < 0 + ctx.numEntries → load32 p.mem (ctx.entry p.mem j) ≠ sig :=
      fun j _ hj heq =>
      hentries (List.mem_map.mpr ⟨j, List.mem_range.mpr (by omega), heq⟩)
    obtain ⟨r, hr⟩ := hall sig hsig
    rw [acpiGetTable, if_neg h.rsdp] at hr
    cases htables : ctx.tables with
    | none =>
        rw [htables] at hr
        exact ⟨Or.inl htables, fun i hi => walkEntries_all ctx.numEntries 0 hentry hr i (Nat.zero_le i)
          (by omega)⟩
    | some tables =>
        have hslot : ∀ (j : Nat) (hj : j < 32), load32 p.mem tables[j] ≠ sig := by
          intro j hj heq
          refine hcached (List.mem_map.mpr ⟨tables[j], ?_, heq⟩)
          simp [htables]
        rw [htables] at hr
        cases hsearch : searchCache p env tables sig ctx.numEntries 0 with
        | error e =>
            simp only [hsearch, bind, Except.bind] at hr
            cases hr
        | ok a =>
            obtain rfl := searchCache_misses _ _ hslot hsearch
            simp only [hsearch, bind, Except.bind] at hr
            refine ⟨Or.inr ?_, fun i hi => walkEntries_all ctx.numEntries 0 hentry hr i (Nat.zero_le i)
              (by omega)⟩
            by_contra hmany
            exact searchCache_leaves _ _ (Nat.zero_le _) (by omega) hslot 0 hsearch
  · intro htame
    refine ⟨h.fits, fun sig _ => ?_⟩
    have hwalk : ∃ r, walkEntries p env ctx sig ctx.numEntries 0 = .ok r :=
      walkEntries_ok _ _ (fun j _ hj => h.inside j (by omega)) (fun j _ hj => htame.mapped j (by omega))
    rw [acpiGetTable, if_neg h.rsdp]
    cases htables : ctx.tables with
    | none => exact hwalk
    | some tables =>
        have hfew : 0 + ctx.numEntries ≤ maxTables := by
          rw [Nat.zero_add]
          rcases htame.few with hnone | hfew
          · rw [hnone] at htables
            cases htables
          · exact hfew
        have hslots : ∀ (j : Nat) (hj : j < 32), tables[j] ≠ 0 → tableMapped p env tables[j] = true := by
          intro j hj hne
          obtain ⟨i, hi, heq, hlow⟩ := h.slots tables htables j hj hne
          rw [heq]
          exact htame.mapped i hi hlow
        obtain ⟨r, hsearch⟩ := @searchCache_ok σ p env tables sig ctx.numEntries 0 hfew hslots
        simp only [hsearch, bind, Except.bind]
        split_ifs
        · exact ⟨r, rfl⟩
        · exact hwalk

theorem acpiInit_entered (hopen : openSdt p env = (some sdt, rsdp, env₁)) (hlen : sizeofHeader ≤ sdt.len) :
    ∃ ctx env', acpiInit p env = .ok (ctx, env') ∧ Entered p sdt ctx := by
  obtain ⟨hrsdp, hheader⟩ := openSdt_spec hopen
  let ctx := { AcpiContext.zero with rsdp }.setSdt sdt
  obtain ⟨hfits, hinside, hbound⟩ : ctx.numEntries * ctx.entrySize + sizeofHeader ≤ sdt.len ∧
      (∀ i < ctx.numEntries, sizeofHeader + (i + 1) * ctx.entrySize ≤ ctx.sdtLength p.mem) ∧
      ctx.numEntries < 2 ^ 30 := setSdt_entries _ hheader hlen
  unfold acpiInit
  rw [hopen]
  dsimp only
  by_cases hptr : (p.kcalloc env₁ maxTables 4).1 = 0
  · rw [if_pos hptr]
    exact ⟨ctx, _, rfl, hrsdp, hfits, hinside, hbound, nofun⟩
  · rw [if_neg hptr]
    obtain ⟨tables, env', hrun, hslots⟩ := cacheTables_spec ctx.numEntries 0 0 (Vector.replicate 32 0)
      (p.kcalloc env₁ maxTables 4).2 fun j _ hj => hinside j (by omega)
    refine ⟨{ ctx with tables := some tables }, env', ?_, hrsdp, hfits, hinside, hbound, ?_⟩
    · rw [hrun]
      rfl
    · intro tables' htables j hj hne
      cases htables
      rcases hslots j hj with hsame | ⟨i, -, hi, heq, hlow⟩
      · rw [hsame, Vector.getElem_replicate] at hne
        exact absurd rfl hne
      · exact ⟨i, by simpa using hi, heq, hlow⟩

theorem acpiInit_short (hopen : openSdt p env = (some sdt, rsdp, env₁)) (hlen : sdt.len < sizeofHeader)
    {ctx : AcpiContext} {env' : σ} (h : acpiInit p env = .ok (ctx, env')) :
    sdt.len < ctx.numEntries * ctx.entrySize + sizeofHeader := by
  unfold acpiInit at h
  rw [hopen] at h
  dsimp only at h
  by_cases hptr : (p.kcalloc env₁ maxTables 4).1 = 0
  · rw [if_pos hptr] at h
    cases h
    omega
  · rw [if_neg hptr] at h
    cases hcache : cacheTables p ({ AcpiContext.zero with rsdp }.setSdt sdt)
        ({ AcpiContext.zero with rsdp }.setSdt sdt).numEntries 0 0 (Vector.replicate 32 0)
        (p.kcalloc env₁ maxTables 4).2 with
    | error e =>
        rw [hcache] at h
        cases h
    | ok result =>
        rw [hcache] at h
        cases h
        exact Nat.lt_of_lt_of_le hlen (Nat.le_add_left _ _)

end Meeting

/-- A root pointer at 0xE0000 and an RSDT of this length at 0x100000, with this checksum; entries
for two tables `APIC` of nothing but their headers, of which a length of 40 has the first one.
Everything is mapped. -/
def rsdtFirmware (length checksum : BitVec 8) : Platform Unit where
  mem a :=
    if 0xE0000 ≤ a ∧ a < 0xE0014 then
      [0x52#8, 0x53#8, 0x44#8, 0x20#8, 0x50#8, 0x54#8, 0x52#8, 0x20#8, 0xD1#8, 0#8, 0#8, 0#8, 0#8, 0#8, 0#8, 0#8,
        0#8, 0#8, 0x10#8, 0#8].getD (a - 0xE0000) 0#8
    else if 0x100000 ≤ a ∧ a < 0x10002C then
      [0x52#8, 0x53#8, 0x44#8, 0x54#8, length, 0#8, 0#8, 0#8, 1#8, checksum, 0#8, 0#8, 0#8, 0#8, 0#8, 0#8, 0#8, 0#8,
        0#8, 0#8, 0#8, 0#8, 0#8, 0#8, 0#8, 0#8, 0#8, 0#8, 0#8, 0#8, 0#8, 0#8, 0#8, 0#8, 0#8, 0#8, 0#8, 1#8, 0x10#8,
        0#8, 0#8, 2#8, 0x10#8, 0#8].getD (a - 0x100000) 0#8
    else if 0x100100 ≤ a ∧ a < 0x100300 then
      [0x41#8, 0x50#8, 0x49#8, 0x43#8, 36#8, 0#8, 0#8, 0#8, 1#8, 0xBE#8].getD (a % 256) 0#8
    else 0#8
  mapped _ _ := true
  vmmMapIfNotMapped env _ _ := (.ok, env)
  kcalloc env _ _ := (0xD0000014, env)

end Frostix.Acpi
