import Frostix.Acpi.Tables

/-!
What `acpi_init` caches and what a lookup finds in the cache. The caching loop checks the
first 36 bytes of a table as if they had a checksum of their own, which only the whole
table has; a table that passes the lookup's test is cached only if its header adds up to
zero as well. -/
namespace Frostix.Acpi
open Machine32 ByteMemory

variable {σ : Type}

def wholeChecksum (m : Mem) (table : Nat) : BitVec 8 := acpiChecksum m table (load32 m (wrap (table + 4)))

/-- An address of 32 bits, pages that can be mapped, first those of the header and then all,
and a checksum of 0 over the whole table. -/
def eligible (p : Platform σ) (env : σ) (table : Nat) : Bool :=
  decide (table ≤ uint32Max) && decide ((p.vmmMapIfNotMapped env table 4096).1 = .ok) &&
    decide ((p.vmmMapIfNotMapped (p.vmmMapIfNotMapped env table 4096).2 table
      (load32 p.mem (wrap (table + 4)))).1 = .ok) && decide (wholeChecksum p.mem table = 0#8)

/-- The eligible ones of so many entries from position `i` on, in table order; each is judged
in the state in which the caching loop comes to it. -/
def eligibleTables (p : Platform σ) (ctx : AcpiContext) : Nat → Nat → σ → List Nat
  | 0, _, _ => []
  | left + 1, i, env =>
      let rest := eligibleTables p ctx left (i + 1) (loadTable p env (ctx.entry p.mem i)).2
      if eligible p env (ctx.entry p.mem i) then ctx.entry p.mem i :: rest else rest

def cacheStores (p : Platform σ) (ctx : AcpiContext) : Nat → Nat → Nat → σ → List Nat
  | 0, _, _, _ => []
  | left + 1, i, cached, env =>
      if cached < 32 then
        let (valid, env) := loadTable p env (ctx.entry p.mem i)
        if valid then ctx.entry p.mem i :: cacheStores p ctx left (i + 1) (cached + 1) env
        else cacheStores p ctx left (i + 1) cached env
      else []

/-- The first entry with the signature, an address of 32 bits and a valid checksum. -/
def firstEntry (m : Mem) (ctx : AcpiContext) (sig : Nat) : Option Nat :=
  ((List.range ctx.numEntries).map (ctx.entry m)).find? fun a =>
    decide (a ≤ uint32Max) && decide (wholeChecksum m a = 0#8) && decide (load32 m a = sig)

/-- A table at this place of the list that is the first of its signature. -/
def Leads (m : Mem) (tables : List Nat) (j : Nat) : Prop :=
  tables.getD j 0 ≠ 0 ∧
    ∀ k < j, tables.getD k 0 ≠ 0 → load32 m (tables.getD k 0) ≠ load32 m (tables.getD j 0)

section Loop

variable {p : Platform σ} {ctx : AcpiContext}

theorem loadTable_eq (env : σ) (table : Nat) :
    (loadTable p env table).1 =
      (eligible p env table && decide (acpiChecksum p.mem table sizeofHeader = 0#8)) := by
  unfold loadTable eligible
  by_cases hhigh : uint32Max < table
  · rw [if_pos hhigh, decide_eq_false (not_le.mpr hhigh)]
    rfl
  rw [if_neg hhigh, decide_eq_true (not_lt.mp hhigh)]
  by_cases hmap : (p.vmmMapIfNotMapped env table 4096).1 = .ok
  · simp only [if_neg (not_not.mpr hmap), decide_eq_true hmap, Bool.true_and]
    by_cases hheader : acpiChecksum p.mem table sizeofHeader = 0#8
    · rw [if_neg (not_not.mpr hheader), decide_eq_true hheader, Bool.and_true]
      by_cases hall : (p.vmmMapIfNotMapped (p.vmmMapIfNotMapped env table 4096).2 table
          (load32 p.mem (wrap (table + 4)))).1 = .ok
      · rw [if_neg (not_not.mpr hall), decide_eq_true hall, Bool.true_and]
        exact (beq_eq_decide _ _)
      · rw [if_pos hall, decide_eq_false hall]
        rfl
    · rw [if_pos hheader, decide_eq_false hheader, Bool.and_false]
  · simp only [if_pos hmap, decide_eq_false hmap, Bool.and_false, Bool.false_and]

theorem cacheStores_header (left : Nat) : ∀ {i cached : Nat} {env : σ} {t : Nat},
    t ∈ cacheStores p ctx left i cached env → acpiChecksum p.mem t sizeofHeader = 0#8 := by
  induction left with
  | zero => exact fun h => absurd h List.not_mem_nil
  | succ left ih =>
      intro i cached env t ht
      rw [cacheStores] at ht
      split_ifs at ht with hroom
      · dsimp only at ht
        by_cases hvalid : (loadTable p env (ctx.entry p.mem i)).1 = true
        · rw [if_pos hvalid] at ht
          rcases List.mem_cons.mp ht with rfl | ht
          · rw [loadTable_eq, Bool.and_eq_true] at hvalid
            exact of_decide_eq_true hvalid.2
          · exact ih ht
        · rw [if_neg hvalid] at ht
          exact ih ht
      · exact absurd ht List.not_mem_nil

/-- The loop stores the first eligible tables as far as there is room, exactly if their
headers add up to zero. -/
theorem cacheStores_iff (left : Nat) : ∀ {i cached : Nat} {env : σ}, cached ≤ 32 →
    (cacheStores p ctx left i cached env = (eligibleTables p ctx left i env).take (32 - cached) ↔
      ∀ t ∈ (eligibleTables p ctx left i env).take (32 - cached),
        acpiChecksum p.mem t sizeofHeader = 0#8) := by
  intro i cached env hcached
  refine ⟨fun heq t ht => cacheStores_header left (heq ▸ ht), fun hheader => ?_⟩
  induction left generalizing i cached env with
  | zero => exact List.take_nil.symm
  | succ left ih =>
      rw [eligibleTables] at hheader ⊢
      rw [cacheStores]
      by_cases hroom : cached < 32
      · rw [if_pos hroom]
        dsimp only
        rw [loadTable_eq]
        by_cases helig : eligible p env (ctx.entry p.mem i) = true
        · rw [if_pos helig, show 32 - cached = 32 - (cached + 1) + 1 by omega, List.take_succ_cons] at hheader ⊢
          rw [helig, decide_eq_true (hheader _ List.mem_cons_self), Bool.and_self, if_pos rfl]
          rw [ih (by omega) fun t ht => hheader t (List.mem_cons_of_mem _ ht)]
        · rw [if_neg helig] at hheader ⊢
          rw [Bool.not_eq_true] at helig
          rw [helig, Bool.false_and, if_neg Bool.false_ne_true]
          exact ih hcached hheader
      · rw [if_neg hroom, show 32 - cached = 0 by omega, List.take_zero]

theorem cacheStores_length (left : Nat) : ∀ {i cached : Nat} {env : σ}, cached ≤ 32 →
    cached + (cacheStores p ctx left i cached env).length ≤ 32 ∧
      (cacheStores p ctx left i cached env).length ≤ left := by
  induction left with
  | zero => exact fun h => ⟨h, le_rfl⟩
  | succ left ih =>
      intro i cached env hcached
      rw [cacheStores]
      by_cases hroom : cached < 32
      · rw [if_pos hroom]
        dsimp only
        by_cases hvalid : (loadTable p env (ctx.entry p.mem i)).1 = true
        · have hrest := @ih (i + 1) (cached + 1) (loadTable p env (ctx.entry p.mem i)).2 (by omega)
          rw [if_pos hvalid, List.length_cons]
          omega
        · have hrest := @ih (i + 1) cached (loadTable p env (ctx.entry p.mem i)).2 hcached
          rw [if_neg hvalid]
          omega
      · rw [if_neg hroom]
        exact ⟨hcached, Nat.zero_le _⟩

/-- Where the entries can be read the loop ends, with what it stored from the first place
on that was not taken. -/
theorem cacheTables_stores (left : Nat) : ∀ {i cached : Nat} {tables : Vector Nat 32} {env : σ},
    (∀ j, i ≤ j → j < i + left → sizeofHeader + (j + 1) * ctx.entrySize ≤ ctx.sdtLength p.mem) →
      ∃ tables' env', cacheTables p ctx left i cached tables env = .ok (tables', env') ∧
        ∀ (j : Nat) (hj : j < 32), tables'[j] =
          if cached ≤ j ∧ j < cached + (cacheStores p ctx left i cached env).length then
            (cacheStores p ctx left i cached env).getD (j - cached) 0
          else tables[j] := by
  induction left with
  | zero =>
      intro i cached tables env _
      refine ⟨tables, env, rfl, fun j hj => ?_⟩
      rw [cacheStores, List.length_nil, if_neg (by omega)]
  | succ left ih =>
      intro i cached tables env hinside
      rw [cacheTables, cacheStores]
      by_cases hroom : cached < 32
      · rw [dif_pos hroom, if_pos hroom, readEntry_of_inside (hinside i le_rfl (by omega))]
        simp only [bind, Except.bind]
        have hinside' : ∀ j, i + 1 ≤ j → j < i + 1 + left →
            sizeofHeader + (j + 1) * ctx.entrySize ≤ ctx.sdtLength p.mem :=
          fun j hlo hhi => hinside j (by omega) (by omega)
        by_cases hvalid : (loadTable p env (ctx.entry p.mem i)).1 = true
        · rw [if_pos hvalid, if_pos hvalid]
          obtain ⟨tables', env', hrun, hslots⟩ := @ih (i + 1) (cached + 1)
            (tables.set cached (ctx.entry p.mem i)) (loadTable p env (ctx.entry p.mem i)).2 hinside'
          refine ⟨tables', env', hrun, fun j hj => ?_⟩
          rw [hslots j hj, List.length_cons]
          by_cases hfirst : cached = j
          · subst hfirst
            rw [if_neg (by omega), if_pos (by omega), Vector.getElem_set_self, Nat.sub_self]
            rfl
          · rw [Vector.getElem_set_ne _ _ hfirst]
            by_cases hin : cached + 1 ≤ j ∧
                j < cached + 1 + (cacheStores p ctx left (i + 1) (cached + 1)
                  (loadTable p env (ctx.entry p.mem i)).2).length
            · rw [if_pos hin, if_pos (by omega), show j - cached = j - (cached + 1) + 1 by omega]
              rfl
            · rw [if_neg hin, if_neg (by omega)]
        · rw [if_neg hvalid, if_neg hvalid]
          exact ih hinside'
      · rw [dif_neg hroom, if_neg hroom]
        refine ⟨tables, env, rfl, fun j hj => ?_⟩
        rw [List.length_nil, if_neg (by omega)]

end Loop

section Lookup

variable {p : Platform σ} {env : σ} {ctx : AcpiContext} {tables : Vector Nat 32}

/-- The search ends at the first table of a signature exactly if what it looks at on the
way is mapped. -/
theorem searchCache_leads {j : Nat} (hj : j < 32) (hne : tables[j] ≠ 0) (left : Nat) :
    ∀ {i : Nat}, i ≤ j → j < i + left →
    (∀ (k : Nat) (hk : k < 32), i ≤ k → k < j → tables[k] ≠ 0 → load32 p.mem tables[k] ≠ load32 p.mem tables[j]) →
    ∀ r, searchCache p env tables (load32 p.mem tables[j]) left i = .ok r ↔
      (∀ (k : Nat) (hk : k < 32), i ≤ k → k ≤ j → tables[k] ≠ 0 → tableMapped p env tables[k] = true) ∧
        r = tables[j] := by
  induction left with
  | zero =>
      intro i hle hlt
      omega
  | succ left ih =>
      intro i hle hlt hfirst r
      have hi : i < 32 := by omega
      rw [searchCache, dif_pos hi]
      by_cases hij : i = j
      · subst hij
        rw [if_neg hne]
        by_cases hmap : tableMapped p env tables[i] = false
        · rw [if_pos hmap]
          refine ⟨fun h => (by cases h), fun h => ?_⟩
          rw [h.1 i hi le_rfl le_rfl hne] at hmap
          cases hmap
        · rw [if_neg hmap, if_pos rfl, Except.ok.injEq]
          refine ⟨fun h => ⟨fun k hk hlo hhi _ => ?_, h.symm⟩, fun h => h.2.symm⟩
          obtain rfl : k = i := Nat.le_antisymm hhi hlo
          rwa [Bool.not_eq_false] at hmap
      · have hrest := @ih (i + 1) (by omega) (by omega) (fun k hk hlo => hfirst k hk (by omega)) r
        have hsplit : ∀ {P : Nat → Prop}, (∀ k, i ≤ k → k ≤ j → P k) ↔ P i ∧ ∀ k, i + 1 ≤ k → k ≤ j → P k := by
          intro P
          refine ⟨fun h => ⟨h i le_rfl hle, fun k hlo => h k (by omega)⟩, fun h k hlo hhi => ?_⟩
          rcases Nat.eq_or_lt_of_le hlo with rfl | hlt'
          · exact h.1
          · exact h.2 k hlt' hhi
        have hall : (∀ (k : Nat) (hk : k < 32), i ≤ k → k ≤ j → tables[k] ≠ 0 → tableMapped p env tables[k] = true) ↔
            (tables[i] ≠ 0 → tableMapped p env tables[i] = true) ∧
              ∀ (k : Nat) (hk : k < 32), i + 1 ≤ k → k ≤ j → tables[k] ≠ 0 →
                tableMapped p env tables[k] = true := by
          refine ⟨fun h => ⟨h i hi le_rfl hle, fun k hk hlo => h k hk (by omega)⟩, fun h k hk hlo hhi => ?_⟩
          rcases Nat.eq_or_lt_of_le hlo with rfl | hlt'
          · exact h.1
          · exact h.2 k hk hlt' hhi
        rw [hall]
        by_cases hzero : tables[i] = 0
        · rw [if_pos hzero, hrest]
          exact and_congr_left' ⟨fun h => ⟨fun hne' => absurd hzero hne', h⟩, And.right⟩
        · rw [if_neg hzero]
          by_cases hmap : tableMapped p env tables[i] = false
          · rw [if_pos hmap]
            refine ⟨fun h => (by cases h), fun h => ?_⟩
            rw [h.1.1 hzero] at hmap
            cases hmap
          · rw [if_neg hmap, if_neg (hfirst i hi le_rfl (by omega) hzero), hrest]
            rw [Bool.not_eq_false] at hmap
            exact and_congr_left' ⟨fun h => ⟨fun _ => hmap, h⟩, And.right⟩

/-- The walk over the entries returns the first one that fits. -/
theorem walkEntries_find {sig r : Nat} (left : Nat) : ∀ {i : Nat},
    walkEntries p env ctx sig left i = .ok r →
      r = (((List.range left).map fun k => ctx.entry p.mem (i + k)).find? fun a =>
        decide (a ≤ uint32Max) && decide (wholeChecksum p.mem a = 0#8) && decide (load32 p.mem a = sig)).getD 0 := by
  induction left with
  | zero =>
      intro i h
      exact (Except.ok.inj h).symm
  | succ left ih =>
      intro i h
      rw [walkEntries] at h
      cases hread : readEntry p.mem ctx i with
      | error e =>
          rw [hread] at h
          cases h
      | ok a =>
          obtain rfl : ctx.entry p.mem i = a := by
            unfold readEntry at hread
            split_ifs at hread
            exact Except.ok.inj hread
          rw [hread] at h
          simp only [bind, Except.bind] at h
          have htail : (List.range (left + 1)).map (fun k => ctx.entry p.mem (i + k)) =
              ctx.entry p.mem i :: (List.range left).map fun k => ctx.entry p.mem (i + 1 + k) := by
            rw [List.range_succ_eq_map, List.map_cons, List.map_map]
            refine congrArg _ (List.map_congr_left fun k _ => ?_)
            rw [Function.comp_apply, Nat.add_assoc, Nat.add_comm 1 k]
          rw [htail, List.find?_cons]
          by_cases hhigh : uint32Max < ctx.entry p.mem i
          · rw [if_pos hhigh] at h
            rw [decide_eq_false (not_le.mpr hhigh), Bool.false_and, Bool.false_and]
            exact ih h
          rw [if_neg hhigh] at h
          rw [decide_eq_true (not_lt.mp hhigh), Bool.true_and]
          by_cases hmap : tableMapped p env (ctx.entry p.mem i) = false
          · rw [if_pos hmap] at h
            cases h
          rw [if_neg hmap] at h
          change (if wholeChecksum p.mem (ctx.entry p.mem i) = 0#8 ∧ load32 p.mem (ctx.entry p.mem i) = sig then
            Except.ok (ctx.entry p.mem i) else walkEntries p env ctx sig left (i + 1)) = .ok r at h
          by_cases hmatch : wholeChecksum p.mem (ctx.entry p.mem i) = 0#8 ∧ load32 p.mem (ctx.entry p.mem i) = sig
          · rw [if_pos hmatch] at h
            rw [decide_eq_true hmatch.1, decide_eq_true hmatch.2]
            exact (Except.ok.inj h).symm
          · rw [if_neg hmatch] at h
            rw [← Bool.decide_and, decide_eq_false hmatch]
            exact ih h

end Lookup

def loopContext (rsdp : Nat) (sdt : Sdt) : AcpiContext := { AcpiContext.zero with rsdp }.setSdt sdt

def listed (p : Platform σ) (env : σ) (rsdp : Nat) (sdt : Sdt) : List Nat :=
  (eligibleTables p (loopContext rsdp sdt) (loopContext rsdp sdt).numEntries 0 (p.kcalloc env maxTables 4).2).take
    maxTables

/-- The loop stores these tables in this order, and for the signature of every table in the
cache the lookup finds in the cache the first entry that fits, which is also what the walk
over the entries finds. -/
structure CachedRight (p : Platform σ) (env env' : σ) (rsdp : Nat) (sdt : Sdt) (ctx : AcpiContext)
    (tables : Vector Nat 32) : Prop where
  stores : cacheStores p (loopContext rsdp sdt) (loopContext rsdp sdt).numEntries 0 0
    (p.kcalloc env maxTables 4).2 = listed p env rsdp sdt
  slots : ∀ (j : Nat) (hj : j < 32), tables[j] = (listed p env rsdp sdt).getD j 0
  lookup : ∀ (j : Nat) (hj : j < 32), tables[j] ≠ 0 → ∃ r, r ≠ 0 ∧
    searchCache p env' tables (load32 p.mem tables[j]) ctx.numEntries 0 = .ok r ∧
    acpiGetTable p env' ctx (load32 p.mem tables[j]) = .ok r ∧
    firstEntry p.mem ctx (load32 p.mem tables[j]) = some r ∧
    ∀ r', walkEntries p env' ctx (load32 p.mem tables[j]) ctx.numEntries 0 = .ok r' → r' = r

/-- `acpi_init` ends with a cache like that. -/
def CachesRight (p : Platform σ) (env env₁ : σ) (rsdp : Nat) (sdt : Sdt) : Prop :=
  ∃ ctx env' tables, acpiInit p env = .ok (ctx, env') ∧ ctx.tables = some tables ∧
    CachedRight p env₁ env' rsdp sdt ctx tables

section Init

variable {p : Platform σ} {env env₁ : σ} {sdt : Sdt} {rsdp : Nat}

/-- With a cache, `acpi_init` ends if the root table covers its header, and only then. -/
theorem acpiInit_stores (hopen : openSdt p env = (some sdt, rsdp, env₁))
    (hcalloc : (p.kcalloc env₁ maxTables 4).1 ≠ 0) (hlen : sizeofHeader ≤ sdt.len) :
    ∃ tables env', acpiInit p env = .ok ({ loopContext rsdp sdt with tables := some tables }, env') ∧
      ∀ (j : Nat) (hj : j < 32), tables[j] =
        (cacheStores p (loopContext rsdp sdt) (loopContext rsdp sdt).numEntries 0 0
          (p.kcalloc env₁ maxTables 4).2).getD j 0 := by
  obtain ⟨-, hheader⟩ := openSdt_spec hopen
  obtain ⟨-, hinside, -⟩ := setSdt_entries (p := p) { AcpiContext.zero with rsdp } hheader hlen
  obtain ⟨tables, env', hrun, hslots⟩ := @cacheTables_stores σ p (loopContext rsdp sdt)
    (loopContext rsdp sdt).numEntries 0 0 (Vector.replicate 32 0) (p.kcalloc env₁ maxTables 4).2
    fun j _ hj => hinside j (by rwa [Nat.zero_add] at hj)
  refine ⟨tables, env', ?_, fun j hj => ?_⟩
  · unfold acpiInit
    rw [hopen]
    dsimp only
    rw [if_neg hcalloc]
    change ((cacheTables p (loopContext rsdp sdt) (loopContext rsdp sdt).numEntries 0 0 (Vector.replicate 32 0)
      (p.kcalloc env₁ maxTables 4).2).bind _ : Except Fault _) = _
    rw [hrun]
    rfl
  · rw [hslots j hj, Vector.getElem_replicate, Nat.sub_zero, Nat.zero_add]
    by_cases hin : j < (cacheStores p (loopContext rsdp sdt) (loopContext rsdp sdt).numEntries 0 0
        (p.kcalloc env₁ maxTables 4).2).length
    · rw [if_pos ⟨Nat.zero_le _, hin⟩]
    · rw [if_neg fun h => hin h.2, List.getD_eq_default _ _ (not_lt.mp hin)]

theorem acpiInit_faults (hopen : openSdt p env = (some sdt, rsdp, env₁))
    (hcalloc : (p.kcalloc env₁ maxTables 4).1 ≠ 0) (hlen : sdt.len < sizeofHeader)
    (r : AcpiContext × σ) : acpiInit p env ≠ .ok r := by
  obtain ⟨-, hheader⟩ := openSdt_spec hopen
  have hlength : (loopContext rsdp sdt).sdtLength p.mem = sdt.len := setSdt_length _ hheader
  obtain ⟨hsize, hsize'⟩ : 4 ≤ (loopContext rsdp sdt).entrySize ∧ (loopContext rsdp sdt).entrySize ≤ 8 :=
    setSdt_size _
  have hnumber : 0 < (loopContext rsdp sdt).numEntries := by
    change 0 < wsub sdt.len sizeofHeader / (loopContext rsdp sdt).entrySize
    refine Nat.div_pos ?_ (by omega)
    unfold wsub wrap sizeofHeader at *
    omega
  obtain ⟨n, hn⟩ := Nat.exists_eq_succ_of_ne_zero hnumber.ne'
  have hread : readEntry p.mem (loopContext rsdp sdt) 0 = .error (.entry 0) :=
    if_neg (by rw [hlength]; omega)
  unfold acpiInit
  rw [hopen]
  dsimp only
  rw [if_neg hcalloc]
  change ((cacheTables p (loopContext rsdp sdt) (loopContext rsdp sdt).numEntries 0 0 (Vector.replicate 32 0)
    (p.kcalloc env₁ maxTables 4).2).bind _ : Except Fault _) ≠ _
  rw [hn, cacheTables, dif_pos (by decide), hread]
  intro h
  cases h

theorem acpiGetTable_cached {ctx : AcpiContext} {tables : Vector Nat 32} {sig r : Nat} (hrsdp : ctx.rsdp ≠ 0)
    (htables : ctx.tables = some tables) (hr : r ≠ 0)
    (hsearch : searchCache p env tables sig ctx.numEntries 0 = .ok r) : acpiGetTable p env ctx sig = .ok r := by
  rw [acpiGetTable, if_neg hrsdp, htables]
  simp only [hsearch, bind, Except.bind]
  rw [if_pos hr]
  rfl

theorem walkEntries_firstEntry {ctx : AcpiContext} {sig r r' : Nat} (hfirst : firstEntry p.mem ctx sig = some r)
    (hwalk : walkEntries p env ctx sig ctx.numEntries 0 = .ok r') : r' = r := by
  have hfind := walkEntries_find _ hwalk
  simp only [Nat.zero_add] at hfind
  rw [hfind]
  exact congrArg (Option.getD · 0) hfirst

theorem exists_leads {m : Mem} {l : List Nat} {j : Nat} (hne : l.getD j 0 ≠ 0) :
    ∃ j₀ ≤ j, Leads m l j₀ ∧ load32 m (l.getD j₀ 0) = load32 m (l.getD j 0) := by
  have hex : ∃ k, l.getD k 0 ≠ 0 ∧ load32 m (l.getD k 0) = load32 m (l.getD j 0) := ⟨j, hne, rfl⟩
  obtain ⟨hne₀, hsig⟩ := Nat.find_spec hex
  refine ⟨Nat.find hex, Nat.find_min' hex ⟨hne, rfl⟩, ⟨hne₀, fun k hk hnek heq => ?_⟩, hsig⟩
  exact Nat.find_min hex hk ⟨hnek, heq.trans hsig⟩

theorem acpiInit_uncached (hopen : openSdt p env = (some sdt, rsdp, env₁))
    (hcalloc : (p.kcalloc env₁ maxTables 4).1 = 0) :
    acpiInit p env = .ok (loopContext rsdp sdt, (p.kcalloc env₁ maxTables 4).2) := by
  unfold acpiInit
  rw [hopen]
  dsimp only
  rw [if_pos hcalloc]
  rfl

end Init

/-- The firmware with one entry, for a table `APIC` of 37 bytes with this checksum and this
byte behind its header. -/
def tableFirmware (checksum last : BitVec 8) : Platform Unit :=
  { rsdtFirmware 40#8 0x89#8 with
    mem := fun a =>
      if 0x100100 ≤ a ∧ a < 0x10010A then
        [0x41#8, 0x50#8, 0x49#8, 0x43#8, 37#8, 0#8, 0#8, 0#8, 1#8, checksum].getD (a - 0x100100) 0#8
      else if a = 0x100124 then last
      else (rsdtFirmware 40#8 0x89#8).mem a }

end Frostix.Acpi
