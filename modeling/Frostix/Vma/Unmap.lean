import Frostix.Vma.Edit

/-!
`munmap_range` as an operation on the list of areas. `Removed` says what it makes of a list,
from any state and with any outcome of the allocations. The pages that were unmapped are
collected along the way. -/
namespace Frostix.Vma
open Machine32 LinkedStore

variable {σ : Type}

/-- The first area that ends above the range is the head of the list, or starts below the
range and is split, or starts behind the range. -/
def MunmapSafe (mm : Mm σ) (addr len : Nat) : Prop :=
  ∀ v a, findVma mm (alignDown addr 4096) = some v → mm.areas v = some a →
    v = mm.mmap ∨ a.vmStart < alignDown addr 4096 ∨ alignUp (wrap (addr + len)) 4096 ≤ a.vmStart

theorem alignUp_mod (a : Nat) : alignUp a 4096 % 4096 = 0 := Nat.mul_mod_left _ _

theorem alignUp_lt (a : Nat) : alignUp a 4096 < 2 ^ 32 :=
  lt_of_le_of_lt (Nat.div_mul_le_self _ _) (wrap_lt _)

theorem InAreas.append {xs ys : List (Nat × Region)} {x : Nat} :
    InAreas (xs ++ ys) x ↔ InAreas xs x ∨ InAreas ys x := by
  simp only [InAreas, List.mem_append, or_and_right, exists_or]

theorem InAreas.cons {c : Nat × Region} {ys : List (Nat × Region)} {x : Nat} :
    InAreas (c :: ys) x ↔ (c.2.start ≤ x ∧ x < c.2.stop) ∨ InAreas ys x := by
  simp only [InAreas, List.mem_cons, or_and_right, exists_or, exists_eq_left]

theorem Owns.setEnv {I J : Set Nat → σ → Prop} {mm : Mm σ} (h : Owns I mm) {s : σ} (hs : J mm.structs s) :
    Owns J { mm with env := s } := ⟨h.self_apart, hs⟩

theorem Owns.imp {I J : Set Nat → σ → Prop} (hIJ : ∀ A s, I A s → J A s) {mm : Mm σ} (h : Owns I mm) :
    Owns J mm := ⟨h.self_apart, hIJ _ _ h.ok⟩

theorem Linked.setEnv {lost : Nat} {mm : Mm σ} {cs : List (Nat × Region)} (h : Linked lost mm cs) (s : σ) :
    Linked lost { mm with env := s } cs := ⟨h.head, h.seg, h.ordered, h.count⟩

/-- `vmm_unmap_page` comes back on the pages of `P`; `I U` knows that those of `U` are unmapped. -/
def UnmapsTo (ops : MmOps σ) (I : Set Nat → Set Nat → σ → Prop) (P : Nat → Prop) : Prop :=
  ∀ U va, P va → ∀ A s, I U A s → ∃ st s', ops.vmmUnmapPage s va = some (st, s') ∧ I (insert va U) A s'

theorem unmapsTo {ops : MmOps σ} {I : Set Nat → σ → Prop} {P : Nat → Prop} (h : Unmaps ops I P) :
    UnmapsTo ops (fun _ => I) P := fun _ va hva A s hs => h va hva A s hs

section Pages

variable {ops : MmOps σ} {I : Set Nat → Set Nat → σ → Prop} {P : Nat → Prop} {U A : Set Nat} {s : σ}

theorem unmapPages_spec (h : UnmapsTo ops I P) {virt n : Nat} (hP : ∀ i < n, P (virt + i * 4096))
    (hlt : virt + n * 4096 ≤ 2 ^ 32) (hs : I U A s) :
    ∃ U' s', unmapPages ops virt n s = some s' ∧ I U' A s' ∧ U ⊆ U' ∧ ∀ i < n, virt + i * 4096 ∈ U' := by
  induction n with
  | zero => exact ⟨U, s, rfl, hs, subset_rfl, nofun⟩
  | succ n ih =>
      rw [Nat.succ_mul, ← Nat.add_assoc] at hlt
      obtain ⟨U₁, s₁, hrun, hs₁, hsub, hmem⟩ := ih (fun i hi => hP i (Nat.lt_succ_of_lt hi)) (by omega)
      obtain ⟨st, s', hlast, hs'⟩ := h U₁ _ (hP n (Nat.lt_succ_self n)) A s₁ hs₁
      refine ⟨_, s', ?_, hs', hsub.trans (Set.subset_insert _ _), ?_⟩
      · rw [unmapPages, hrun]
        simp only [Option.bind_eq_bind, Option.bind_some]
        rw [wrap_of_lt (by omega), hlast]
        rfl
      · intro i hi
        rcases Nat.lt_succ_iff_lt_or_eq.mp hi with hi | rfl
        · exact Set.mem_insert_of_mem _ (hmem i hi)
        · exact Set.mem_insert _ _

theorem Region.area_pages {r : Region} (hr : r.Valid) (next : Nat) :
    (r.area next).pages = (r.stop - r.start) / 4096 := by
  obtain ⟨-, -, hlt, hmax⟩ := hr
  unfold VmArea.pages Region.area
  rw [wsub_of_le hmax hlt.le]

theorem unmapArea_spec (h : UnmapsTo ops I P) {r : Region} (hr : r.Valid) (next : Nat)
    (hP : ∀ va, va % 4096 = 0 → r.start ≤ va → va < r.stop → P va) (hs : I U A s) :
    ∃ U' s', unmapPages ops (r.area next).vmStart (r.area next).pages s = some s' ∧ I U' A s' ∧ U ⊆ U' ∧
      ∀ va, va % 4096 = 0 → r.start ≤ va → va < r.stop → va ∈ U' := by
  have hpages := Region.area_pages hr next
  obtain ⟨ha, hb, hlt, hmax⟩ := hr
  rw [hpages]
  obtain ⟨U', s', hrun, hs', hsub, hmem⟩ := @unmapPages_spec _ _ _ _ _ _ _ h r.start ((r.stop - r.start) / 4096)
    (fun i hi => hP _ (by omega) (by omega) (by omega)) (by omega) hs
  refine ⟨U', s', hrun, hs', hsub, ?_⟩
  intro va hva hlo hhi
  have hpage := hmem ((va - r.start) / 4096) (by omega)
  rwa [show r.start + (va - r.start) / 4096 * 4096 = va by omega] at hpage

end Pages

/-- What `munmap_range` relies on. `busy U` is kept throughout; memory for a struct is requested
in `ready U` only, which holds before the first page is unmapped and when a struct was freed. -/
structure Unmapping (ops : MmOps σ) (root : Nat) (busy ready : Set Nat → Set Nat → σ → Prop)
    (P : Nat → Prop) : Prop where
  start : ∀ A s, busy ∅ A s → ready ∅ A s
  leave : ∀ U A s, ready U A s → busy U A s
  alloc : ∀ U, AllocatesArea ops (ready U) (busy U)
  unmap : UnmapsTo ops busy P
  free : ∀ U, FreesArea ops root (busy U) (ready U)

theorem Unmapping.of_allocator {ops : MmOps σ} {I : Set Nat → σ → Prop} {P : Nat → Prop}
    (hops : Allocator ops I) (hun : Unmaps ops I P) (self : Nat) :
    Unmapping ops self (fun _ => I) (fun _ => I) P :=
  ⟨fun _ _ hs => hs, fun _ _ _ hs => hs, fun _ => allocatesArea hops, unmapsTo hun,
    fun _ => freesArea hops.kfree self⟩

theorem Linked.unlinkFirst {lost : Nat} {mm : Mm σ} {qs ys : List (Nat × Region)} {c : Nat × Region}
    (h : Linked lost mm (qs ++ c :: ys)) :
    Linked (lost + qs.length) { mm with mmap := headPtr ys 0, mapCount := wsub mm.mapCount 1 } ys := by
  have hlen := h.ordered.length_lt
  have hsub : ys.Sublist (qs ++ c :: ys) :=
    (List.sublist_cons_self c ys).trans (List.sublist_append_right qs _)
  refine ⟨rfl, (Seg.append.mp h.seg).2.2.2, h.ordered.sublist hsub, ?_⟩
  change wsub mm.mapCount 1 = _
  rw [h.count]
  simp only [List.length_append, List.length_cons]
  unfold wsub wrap
  omega

/-- `ps` is the part of the list before the area as far as `munmap_range` knows it: all of it
or nothing. -/
theorem Linked.unlinkKnown {lost : Nat} {mm : Mm σ} {ps qs ys : List (Nat × Region)}
    {c : Nat × Region} (h : Linked lost mm (qs ++ c :: ys)) (hknown : ps = qs ∨ ps = []) :
    ∃ mm' lost', Vma.unlinkAfter mm (lastPtr 0 ps) (headPtr ys 0) = some mm' ∧ Linked lost' mm' (ps ++ ys) ∧
      (ps = qs → lost' = lost) ∧ mm'.self = mm.self ∧ mm'.env = mm.env ∧ mm'.areas c.1 = mm.areas c.1 ∧
      ∀ a, mm'.areas a = none ↔ mm.areas a = none := by
  rcases hknown with rfl | rfl
  · obtain ⟨mm', hrun, hlist, hrest⟩ := h.unlinkAfter
    exact ⟨mm', lost, hrun, hlist, fun _ => rfl, hrest⟩
  · exact ⟨_, lost + qs.length, rfl, h.unlinkFirst, fun hq => by rw [← hq]; rfl, rfl, rfl, rfl,
      fun _ => Iff.rfl⟩

section Areas

variable {ops : MmOps σ} {root : Nat} {busy ready : Set Nat → Set Nat → σ → Prop} {P : Nat → Prop}
  {U : Set Nat} {lost : Nat}

theorem Owns.drop (hun : Unmapping ops root busy ready P) {mm : Mm σ} {ps qs ys : List (Nat × Region)}
    {c : Nat × Region} (hself : mm.self = root) (hown : Owns (busy U) mm)
    (hl : Linked lost mm (qs ++ c :: ys)) (hknown : ps = qs ∨ ps = [])
    (hP : ∀ va, va % 4096 = 0 → c.2.start ≤ va → va < c.2.stop → P va) :
    ∃ env mm' lost' U', unmapPages ops (c.2.area (headPtr ys 0)).vmStart (c.2.area (headPtr ys 0)).pages
        mm.env = some env ∧
      unlinkAfter { mm with env } (lastPtr 0 ps) (headPtr ys 0) = some mm' ∧
      Linked lost' (vmAreaFree ops mm' c.1) (ps ++ ys) ∧ (ps = qs → lost' = lost) ∧
      Owns (ready U') (vmAreaFree ops mm' c.1) ∧ (vmAreaFree ops mm' c.1).self = root ∧ U ⊆ U' ∧
      ∀ va, va % 4096 = 0 → c.2.start ≤ va → va < c.2.stop → va ∈ U' := by
  have hvalid := hl.ordered.valid c (by simp)
  obtain ⟨-, hcne, hcval, -⟩ := Seg.append.mp hl.seg
  obtain ⟨hcx, hcy⟩ := notMem_of_nodup hl.nodup
  obtain ⟨U', env, hrun, hok, hsub, hmem⟩ := unmapArea_spec hun.unmap hvalid (headPtr ys 0) hP hown.ok
  obtain ⟨mm', lost', hunlink, hlist, hlost, hself', henv, hsame, hnone⟩ := (hl.setEnv env).unlinkKnown hknown
  have hself₂ : mm'.self = root := hself'.trans hself
  have hown' : Owns (busy U') mm' := (hown.setEnv (J := busy U') hok).congr hself' hnone henv
  have hfree : FreesArea ops mm'.self (busy U') (ready U') := by
    rw [hself₂]
    exact hun.free U'
  refine ⟨env, mm', lost', U', hrun, hunlink, hlist.free ?_, hlost,
    hown'.free hfree hcne (hsame.trans hcval), ?_, hsub, hmem⟩
  · rw [List.map_append, List.mem_append, not_or]
    refine ⟨?_, hcy⟩
    rcases hknown with rfl | rfl
    · exact hcx
    · exact List.not_mem_nil
  · rw [vmAreaFree, if_neg hcne]
    exact hself₂

end Areas

/-- What the loop of `munmap_range` makes of the areas `rest` behind `qs`, of which it knows the
part `ps`: the areas up to `stop` are dropped, and one that reaches beyond is cut. -/
inductive Trimmed (stop : Nat) (ps : List (Nat × Region)) : List (Nat × Region) → List (Nat × Region) →
    KernelStatus → List (Nat × Region) → Prop
  | nil (qs : List (Nat × Region)) : Trimmed stop ps qs [] .ok qs
  | behind (qs : List (Nat × Region)) (c : Nat × Region) (rest : List (Nat × Region)) : stop ≤ c.2.start →
      Trimmed stop ps qs (c :: rest) .ok (qs ++ c :: rest)
  | failed (qs : List (Nat × Region)) (c : Nat × Region) (rest : List (Nat × Region)) : c.2.start < stop →
      stop < c.2.stop → Trimmed stop ps qs (c :: rest) .outOfMemory (qs ++ c :: rest)
  | split (qs : List (Nat × Region)) (c : Nat × Region) (rest : List (Nat × Region)) (u : Nat) :
      c.2.start < stop → stop < c.2.stop →
      Trimmed stop ps qs (c :: rest) .ok (ps ++ (u, c.2.upper stop) :: rest)
  | drop (qs : List (Nat × Region)) (c : Nat × Region) (rest cs' : List (Nat × Region)) (st : KernelStatus) :
      c.2.stop ≤ stop → Trimmed stop ps ps rest st cs' → Trimmed stop ps qs (c :: rest) st cs'

/-- What `munmap_range` leaves: the list, what it lost, and the pages that were unmapped. -/
structure Left (busy : Set Nat → Set Nat → σ → Prop) (root lost lost' : Nat) (known : Prop) (U U' : Set Nat)
    (mm' : Mm σ) (cs' : List (Nat × Region)) : Prop where
  linked : Linked lost' mm' cs'
  kept : known → lost' = lost
  owns : Owns (busy U') mm'
  same : mm'.self = root
  sub : U ⊆ U'

section Loop

variable {ops : MmOps σ} {root : Nat} {busy ready : Set Nat → Set Nat → σ → Prop} {P : Nat → Prop}

theorem munmapFrom_trims (hun : Unmapping ops root busy ready P) {stop : Nat} (halign : stop % 4096 = 0)
    (ps rest : List (Nat × Region)) :
    ∀ (lost : Nat) (U : Set Nat) (qs : List (Nat × Region)) (mm : Mm σ) (fuel : Nat), ps = qs ∨ ps = [] →
      Linked lost mm (qs ++ rest) → Owns (ready U) mm → mm.self = root → rest.length < fuel →
      (∀ va, va % 4096 = 0 → va < stop → InAreas rest va → P va) →
      ∃ st mm' cs' lost' U', munmapFrom ops stop fuel (lastPtr 0 ps) (headPtr rest 0) mm = some (st, mm') ∧
        Trimmed stop ps qs rest st cs' ∧ Left busy root lost lost' (ps = qs) U U' mm' cs' ∧
        (st = .ok → ∀ va, va % 4096 = 0 → va < stop → InAreas rest va → va ∈ U') := by
  induction rest with
  | nil =>
      intro lost U qs mm fuel _ hl hown hself hfuel _
      obtain ⟨k, rfl⟩ := Nat.exists_eq_add_one.mpr (Nat.zero_lt_of_lt hfuel)
      rw [List.append_nil] at hl
      exact ⟨.ok, mm, qs, lost, U, rfl, .nil qs, ⟨hl, fun _ => rfl, hown.imp (hun.leave U), hself, subset_rfl⟩,
        fun _ va _ _ hin => by simp [InAreas] at hin⟩
  | cons c rest ih =>
      intro lost U qs mm fuel hknown hl hown hself hfuel hP
      obtain ⟨k, rfl⟩ := Nat.exists_eq_add_one.mpr (Nat.zero_lt_of_lt hfuel)
      obtain ⟨-, hcne, hcval, -⟩ := Seg.append.mp hl.seg
      have hord := hl.ordered.of_append.2.1
      have hbehindRest := (List.pairwise_cons.mp hord.sorted).1
      have hvalid := hord.valid c List.mem_cons_self
      rw [munmapFrom, headPtr, if_neg hcne, hcval]
      simp only [Option.bind_eq_bind, Option.bind_some]
      by_cases hbehind : stop ≤ (c.2.area (headPtr rest 0)).vmStart
      · rw [if_pos hbehind]
        refine ⟨.ok, mm, qs ++ c :: rest, lost, U, rfl, .behind qs c rest hbehind,
          ⟨hl, fun _ => rfl, hown.imp (hun.leave U), hself, subset_rfl⟩, ?_⟩
        rintro - va - hlt ⟨d, hd, hge, -⟩
        have hstart : stop ≤ c.2.start := hbehind
        have hpos := hvalid.2.2.1
        rcases List.mem_cons.mp hd with rfl | hd
        · omega
        · have hcd := hbehindRest d hd
          omega
      rw [if_neg hbehind]
      have hstart : c.2.start < stop := not_le.mp hbehind
      by_cases htail : stop < (c.2.area (headPtr rest 0)).vmEnd
      · rw [if_pos htail]
        have hend : stop < c.2.stop := htail
        obtain ⟨u, mm₁, hsplit, -, hself₁, hown₁, ⟨rfl, hl₁⟩ | ⟨hu, hl₁⟩⟩ :=
          hown.split (hun.alloc U) (a := c.1) (r := c.2) hl hstart hend halign
        · rw [hsplit]
          refine ⟨.outOfMemory, mm₁, _, lost, U, rfl, .failed qs c rest hstart hend,
            ⟨hl₁, fun _ => rfl, hown₁, hself₁.trans hself, subset_rfl⟩, fun hok => ?_⟩
          cases hok
        · obtain ⟨-, -, hlval, -⟩ := Seg.append.mp hl₁.seg
          obtain ⟨env, mm₂, lost₂, U₂, hrun, hunlink, hl₂, hlost₂, hown₂, hself₂, hsub₂, hmem₂⟩ :=
            hown₁.drop hun (hself₁.trans hself) hl₁ hknown (by
              intro va hva hge hlt
              have hge' : c.2.start ≤ va := hge
              have hlt' : va < stop := hlt
              exact hP va hva hlt' (InAreas.cons.mpr (Or.inl ⟨hge', by omega⟩)))
          rw [hsplit]
          simp only [Option.bind_some, if_neg hu]
          change mm₁.areas c.1 = _ at hlval
          rw [hlval]
          simp only [Option.bind_some]
          rw [hrun]
          simp only [Option.bind_some]
          change ∃ st mm' cs' lost' U', (unlinkAfter _ _
            (headPtr ((u, c.2.upper stop) :: rest) 0)).bind _ = _ ∧ _
          rw [hunlink]
          refine ⟨.ok, _, _, lost₂, U₂, rfl, .split qs c rest u hstart hend,
            ⟨hl₂, hlost₂, hown₂.imp (hun.leave U₂), hself₂, hsub₂⟩, ?_⟩
          rintro - va hva hlt hin
          rcases InAreas.cons.mp hin with ⟨hge, -⟩ | ⟨d, hd, hge, -⟩
          · exact hmem₂ va hva hge hlt
          · have hcd := hbehindRest d hd
            omega
      · rw [if_neg htail]
        have hend : c.2.stop ≤ stop := not_lt.mp htail
        obtain ⟨env, mm₁, lost₁, U₁, hrun, hunlink, hl₁, hlost₁, hown₁, hself₁, hsub₁, hmem₁⟩ :=
          hown.imp (hun.leave U) |>.drop hun hself hl hknown (by
            intro va hva hge hlt
            exact hP va hva (by omega) (InAreas.cons.mpr (Or.inl ⟨hge, hlt⟩)))
        obtain ⟨st, mm', cs', lost', U', hrest, htrim, hleft, hmem⟩ := ih lost₁ U₁ ps _ k (Or.inl rfl) hl₁ hown₁
          hself₁ (by simpa using hfuel)
          (fun va hva hlt hin => hP va hva hlt (InAreas.cons.mpr (Or.inr hin)))
        rw [hrun]
        simp only [Option.bind_some]
        change ∃ st mm' cs' lost' U', (unlinkAfter _ _ (headPtr rest 0)).bind _ = _ ∧ _
        rw [hunlink]
        refine ⟨st, mm', cs', lost', U', hrest, .drop qs c rest cs' st hend htrim,
          ⟨hleft.linked, fun hq => (hleft.kept rfl).trans (hlost₁ hq), hleft.owns, hleft.same,
            hsub₁.trans hleft.sub⟩, ?_⟩
        intro hst va hva hlt hin
        rcases InAreas.cons.mp hin with ⟨hge, hlt'⟩ | hin
        · exact hleft.sub (hmem₁ va hva hge hlt')
        · exact hmem hst va hva hlt hin

end Loop

/-- What `munmap_range` makes of the list: nothing is there, or the first area that ends above
`start` is cut there and the loop begins with its upper part, or the loop begins with that
area and knows nothing before it. `first` is what the first allocation returns. -/
inductive Removed (first : Nat → Prop) (start stop : Nat) : List (Nat × Region) → KernelStatus →
    List (Nat × Region) → Prop
  | none (cs : List (Nat × Region)) : (∀ c ∈ cs, c.2.stop ≤ start) → Removed first start stop cs .ok cs
  | failed (xs : List (Nat × Region)) (c : Nat × Region) (ys : List (Nat × Region)) :
      (∀ x ∈ xs, x.2.stop ≤ start) → c.2.start < start → start < c.2.stop → first 0 →
      Removed first start stop (xs ++ c :: ys) .outOfMemory (xs ++ c :: ys)
  | cut (xs : List (Nat × Region)) (c : Nat × Region) (ys : List (Nat × Region)) (u : Nat) (st : KernelStatus)
      (cs' : List (Nat × Region)) : (∀ x ∈ xs, x.2.stop ≤ start) → c.2.start < start → start < c.2.stop →
      Trimmed stop (xs ++ [(c.1, c.2.lower start)]) (xs ++ [(c.1, c.2.lower start)])
        ((u, c.2.upper start) :: ys) st cs' →
      Removed first start stop (xs ++ c :: ys) st cs'
  | whole (xs : List (Nat × Region)) (c : Nat × Region) (ys : List (Nat × Region)) (st : KernelStatus)
      (cs' : List (Nat × Region)) : (∀ x ∈ xs, x.2.stop ≤ start) → start ≤ c.2.start → start < c.2.stop →
      Trimmed stop [] xs (c :: ys) st cs' → Removed first start stop (xs ++ c :: ys) st cs'

/-- `find_vma` on a list whose first area above `addr` is known. -/
theorem Linked.findVma_hit {lost : Nat} {mm : Mm σ} {xs ys : List
    (Nat × Region)} {c : Nat × Region} {addr : Nat}
    (h : Linked lost mm (xs ++ c :: ys)) (hxs : ∀ x ∈ xs, x.2.stop ≤ addr) (hc : addr < c.2.stop) :
    findVma mm addr = some c.1 := by
  have hfuel := h.ordered.length_lt_fuel
  rw [findVma, h.head]
  rcases Seg.findFrom_spec addr _ listFuel h.seg hfuel with ⟨-, hall⟩ | ⟨ps, d, qs, heq, hps, hd, hrun⟩
  · exact absurd (hall c (by simp)) (not_le.mpr hc)
  rw [hrun]
  -- the two lists agree up to the first area above `addr`
  rcases List.append_eq_append_iff.mp heq with ⟨ws, rfl, hws⟩ | ⟨ws, rfl, hws⟩
  · cases ws with
    | nil =>
        cases hws
        rfl
    | cons w ws =>
        cases hws
        exact absurd (hps c (by simp)) (not_le.mpr hc)
  · cases ws with
    | nil =>
        cases hws
        rfl
    | cons w ws =>
        cases hws
        exact absurd (hxs d (by simp)) (not_le.mpr hd)

/-- What `MunmapSafe` says about the first area that ends above the start of the range. -/
theorem Linked.munmapSafe_iff {lost : Nat} {mm : Mm σ} {xs ys : List (Nat × Region)} {c : Nat × Region}
    {addr len : Nat} (h : Linked lost mm (xs ++ c :: ys)) (hxs : ∀ x ∈ xs, x.2.stop ≤ alignDown addr 4096)
    (hc : alignDown addr 4096 < c.2.stop) :
    MunmapSafe mm addr len ↔
      xs = [] ∨ c.2.start < alignDown addr 4096 ∨ alignUp (wrap (addr + len)) 4096 ≤ c.2.start := by
  have hfind := h.findVma_hit hxs hc
  obtain ⟨-, -, hcval, -⟩ := Seg.append.mp h.seg
  have hhead : c.1 = mm.mmap ↔ xs = [] := by
    rw [h.head]
    cases xs with
    | nil => exact iff_of_true rfl rfl
    | cons x xs =>
        refine iff_of_false ?_ (List.cons_ne_nil x xs)
        intro heq
        exact (notMem_of_nodup h.nodup).1 (heq ▸ List.mem_cons_self)
  constructor
  · intro hsafe
    rcases hsafe c.1 _ hfind hcval with hfirst | hrest
    · exact Or.inl (hhead.mp hfirst)
    · exact Or.inr hrest
  · rintro hcase v a hv ha
    cases hfind.symm.trans hv
    cases hcval.symm.trans ha
    rcases hcase with hnil | hrest
    · exact Or.inl (hhead.mpr hnil)
    · exact Or.inr hrest

section Range

variable {ops : MmOps σ} {root lost : Nat} {busy ready : Set Nat → Set Nat → σ → Prop} {P : Nat → Prop}

/-- A run that leaves what `Removed` says, with the pages that it unmapped. -/
def Removes (ops : MmOps σ) (busy : Set Nat → Set Nat → σ → Prop) (root lost : Nat) (known : Prop) (mm : Mm σ)
    (cs : List (Nat × Region)) (start stop : Nat) (run : Option (KernelStatus × Mm σ)) : Prop :=
  ∃ st mm' cs' lost' U', run = some (st, mm') ∧
    Removed (fun u => ∃ s, ops.kmalloc mm.env sizeofArea = some (u, s)) start stop cs st cs' ∧
    Left busy root lost lost' known ∅ U' mm' cs' ∧
    (st = .ok → ∀ va, va % 4096 = 0 → start ≤ va → va < stop → InAreas cs va → va ∈ U')

variable {mm : Mm σ} {xs ys : List (Nat × Region)} {c : Nat × Region} {start stop : Nat} {known : Prop}

theorem InAreas.behind (hxs : ∀ x ∈ xs, x.2.stop ≤ start) {va : Nat} (hge : start ≤ va) :
    InAreas (xs ++ ys) va ↔ InAreas ys va := by
  rw [InAreas.append]
  refine or_iff_right ?_
  rintro ⟨x, hx, -, hlt⟩
  have hstop := hxs x hx
  omega

theorem Ordered.head_le (h : Ordered (c :: ys)) {d : Nat × Region} (hd : d ∈ c :: ys) :
    c.2.start ≤ d.2.start := by
  rcases List.mem_cons.mp hd with rfl | hd
  · exact le_rfl
  · have hpos := (h.valid c List.mem_cons_self).2.2.1
    have hcd := (List.pairwise_cons.mp h.sorted).1 d hd
    omega

theorem Ordered.le_of_inAreas (h : Ordered (c :: ys)) {va : Nat} (hin : InAreas (c :: ys) va) :
    c.2.start ≤ va := by
  obtain ⟨d, hd, hge, -⟩ := hin
  exact (h.head_le hd).trans hge

/-- The first area is cut at the start of the range, and the loop begins with its upper part. -/
theorem Linked.removes_cut (hl : Linked lost mm (xs ++ c :: ys)) (hun : Unmapping ops root busy ready P)
    (hown : Owns (busy ∅) mm) (hself : mm.self = root) (hstart : start % 4096 = 0) (hstop : stop % 4096 = 0)
    (hxs : ∀ x ∈ xs, x.2.stop ≤ start) (hlo : c.2.start < start) (hin : start < c.2.stop)
    (hP : ∀ va, va % 4096 = 0 → start ≤ va → va < stop → InAreas (xs ++ c :: ys) va → P va) :
    Removes ops busy root lost known mm (xs ++ c :: ys) start stop ((splitVmaAt ops mm c.1 start).bind fun r =>
      if r.1 = 0 then some (.outOfMemory, r.2) else munmapFrom ops stop listFuel c.1 r.1 r.2) := by
  obtain ⟨u, mm₁, hrun, hfirst, hself₁, hown₁, ⟨rfl, hl₁⟩ | ⟨hu, hl₁⟩⟩ :=
    (hown.imp hun.start).split (hun.alloc ∅) (a := c.1) (r := c.2) hl hlo hin hstart
  · rw [hrun]
    exact ⟨.outOfMemory, mm₁, _, lost, ∅, rfl, .failed xs c ys hxs hlo hin ⟨_, hfirst⟩,
      ⟨hl₁, fun _ => rfl, hown₁, hself₁.trans hself, subset_rfl⟩, nofun⟩
  · have hl₂ : Linked lost mm₁ ((xs ++ [(c.1, c.2.lower start)]) ++ (u, c.2.upper start) :: ys) := by
      simpa using hl₁
    have hupper : ∀ va, start ≤ va → (InAreas ((u, c.2.upper start) :: ys) va ↔ InAreas (xs ++ c :: ys) va) := by
      intro va hge
      rw [InAreas.behind hxs hge, InAreas.cons, InAreas.cons]
      exact or_congr_left ⟨fun h => ⟨le_trans hlo.le hge, h.2⟩, fun h => ⟨hge, h.2⟩⟩
    have hge : ∀ va, InAreas ((u, c.2.upper start) :: ys) va → start ≤ va := fun va h =>
      hl₂.ordered.of_append.2.1.le_of_inAreas h
    have hfuel := hl₂.ordered.length_lt_fuel
    rw [List.length_append] at hfuel
    obtain ⟨st, mm', cs', lost', U', hrest, htrim, hleft, hmem⟩ := munmapFrom_trims hun hstop
      (xs ++ [(c.1, c.2.lower start)]) ((u, c.2.upper start) :: ys) lost ∅ _ mm₁ listFuel (Or.inl rfl) hl₂
      (hown₁.imp hun.start) (hself₁.trans hself) (by omega)
      (fun va hva hlt h => hP va hva (hge va h) hlt ((hupper va (hge va h)).mp h))
    rw [hrun]
    simp only [Option.bind_some, if_neg hu]
    rw [lastPtr_append] at hrest
    exact ⟨st, mm', cs', lost', U', hrest, .cut xs c ys u st cs' hxs hlo hin htrim,
      ⟨hleft.linked, fun _ => hleft.kept rfl, hleft.owns, hleft.same, hleft.sub⟩,
      fun hst va hva hle hlt h => hmem hst va hva hlt ((hupper va hle).mpr h)⟩

/-- The first area begins in the range or behind it, and the loop knows nothing before it. -/
theorem Linked.removes_whole (hl : Linked lost mm (xs ++ c :: ys)) (hun : Unmapping ops root busy ready P)
    (hown : Owns (busy ∅) mm) (hself : mm.self = root) (hstop : stop % 4096 = 0)
    (hxs : ∀ x ∈ xs, x.2.stop ≤ start) (hge : start ≤ c.2.start) (hin : start < c.2.stop)
    (hknown : known → xs = [] ∨ stop ≤ c.2.start)
    (hP : ∀ va, va % 4096 = 0 → start ≤ va → va < stop → InAreas (xs ++ c :: ys) va → P va) :
    Removes ops busy root lost known mm (xs ++ c :: ys) start stop (munmapFrom ops stop listFuel 0 c.1 mm) := by
  have hord := hl.ordered.of_append.2.1
  by_cases hbehind : stop ≤ c.2.start
  · -- the loop ends at once
    obtain ⟨-, hcne, hcval, -⟩ := Seg.append.mp hl.seg
    have hend : stop ≤ (c.2.area (headPtr ys 0)).vmStart := hbehind
    refine ⟨.ok, mm, _, lost, ∅, ?_, .whole xs c ys .ok _ hxs hge hin (.behind xs c ys hbehind),
      ⟨hl, fun _ => rfl, hown, hself, subset_rfl⟩, ?_⟩
    · rw [show listFuel = (listFuel - 1) + 1 from rfl, munmapFrom, if_neg hcne, hcval]
      simp only [Option.bind_eq_bind, Option.bind_some]
      rw [if_pos hend]
    · rintro - va - hle hlt h
      have hle' := hord.le_of_inAreas ((InAreas.behind hxs hle).mp h)
      omega
  · have hbelow : ∀ va, InAreas (c :: ys) va → start ≤ va := fun va h => hge.trans (hord.le_of_inAreas h)
    have hfuel := hl.ordered.length_lt_fuel
    rw [List.length_append] at hfuel
    obtain ⟨st, mm', cs', lost', U', hrest, htrim, hleft, hmem⟩ :=
      munmapFrom_trims hun hstop [] (c :: ys) lost ∅ xs mm listFuel (Or.inr rfl) hl (hown.imp hun.start) hself
        (by omega) (fun va hva hlt h => hP va hva (hbelow va h) hlt ((InAreas.behind hxs (hbelow va h)).mpr h))
    refine ⟨st, mm', cs', lost', U', hrest, .whole xs c ys st cs' hxs hge hin htrim,
      ⟨hleft.linked, fun hk => ?_, hleft.owns, hleft.same, hleft.sub⟩,
      fun hst va hva hle hlt h => hmem hst va hva hlt ((InAreas.behind hxs hle).mp h)⟩
    rcases hknown hk with hnil | hle
    · exact hleft.kept hnil.symm
    · exact absurd hle hbehind

theorem munmapRange_removes (hun : Unmapping ops root busy ready P) {mm : Mm σ} {cs : List (Nat × Region)}
    (hl : Linked lost mm cs) (hown : Owns (busy ∅) mm) (hself : mm.self = root) {addr len : Nat}
      (hlen : len ≠ 0)
    (hP : ∀ va, va % 4096 = 0 → alignDown addr 4096 ≤ va → va < alignUp (wrap (addr + len)) 4096 →
      InAreas cs va → P va) :
    ∃ st mm' cs' lost' U', munmapRange ops mm addr len = some (st, mm') ∧
      Removed (fun u => ∃ s, ops.kmalloc mm.env sizeofArea = some (u, s)) (alignDown addr 4096)
        (alignUp (wrap (addr + len)) 4096) cs st cs' ∧
      Left busy root lost lost' (MunmapSafe mm addr len) ∅ U' mm' cs' ∧
      (st = .ok → ∀ va, va % 4096 = 0 → alignDown addr 4096 ≤ va → va < alignUp (wrap (addr + len)) 4096 →
        InAreas cs va → va ∈ U') := by
  have halign := alignUp_mod (wrap (addr + len))
  have hstartAlign : alignDown addr 4096 % 4096 = 0 := Nat.mul_mod_left _ _
  change Removes ops busy root lost (MunmapSafe mm addr len) mm cs (alignDown addr 4096)
    (alignUp (wrap (addr + len)) 4096) (munmapRange ops mm addr len)
  rw [munmapRange, if_neg hlen]
  rcases Seg.findFrom_spec (alignDown addr 4096) cs listFuel hl.seg hl.ordered.length_lt_fuel with
    ⟨hrun, hall⟩ | ⟨xs, c, ys, rfl, hxs, hin, -⟩
  · have hfind : findVma mm (alignDown addr 4096) = some 0 := by rw [findVma, hl.head, hrun]
    simp only [hfind]
    refine ⟨.ok, mm, cs, lost, ∅, rfl, .none cs hall, ⟨hl, fun _ => rfl, hown, hself, subset_rfl⟩, ?_⟩
    rintro - va - hge - ⟨x, hx, -, hlt⟩
    have hstop := hall x hx
    omega
  · have hsafe := @Linked.munmapSafe_iff _ _ _ _ _ _ _ len hl hxs hin
    have hfind := hl.findVma_hit hxs hin
    obtain ⟨-, hcne, hcval, -⟩ := Seg.append.mp hl.seg
    simp only [hfind, Option.bind_eq_bind, Option.bind_some, if_neg hcne]
    rw [hcval]
    simp only [Option.bind_some]
    by_cases hsplit : (c.2.area (headPtr ys 0)).vmStart < alignDown addr 4096 ∧
        alignDown addr 4096 < (c.2.area (headPtr ys 0)).vmEnd
    · rw [if_pos hsplit]
      exact hl.removes_cut hun hown hself hstartAlign halign hxs hsplit.1 hin hP
    · rw [if_neg hsplit]
      have hge : alignDown addr 4096 ≤ c.2.start := by
        by_contra hlt
        exact hsplit ⟨not_le.mp hlt, hin⟩
      refine hl.removes_whole hun hown hself halign hxs hge hin (fun hs => ?_) hP
      exact (hsafe.mp hs).imp_right fun h => h.resolve_left (not_lt.mpr hge)

end Range

end Frostix.Vma
