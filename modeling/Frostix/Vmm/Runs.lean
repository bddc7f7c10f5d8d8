import Frostix.Vmm.Translation

/-!
Runs of `vmm_map_page` and `vmm_unmap_page` with paging enabled. The invariant
`Sound` is kept by every call, so every call of a run meets its specification:
it changes the translation of its own page only, and an error changes nothing.

The recursive window is outside of this description by design: entering a page
table makes one more page of the window visible. -/
namespace Frostix.Vmm
open Machine32 Pmm

inductive VmmOp where
  | mapPage (virt phys flags : Nat)
  | unmapPage (virt : Nat)

def VmmOp.exec (m : Machine) : VmmOp → Option (KernelStatus × Machine)
  | .mapPage virt phys flags => vmmMapPage m virt phys flags
  | .unmapPage virt => vmmUnmapPage m virt

/-- Addresses below the recursive window, and mappings that are present. -/
def VmmOp.Allowed : VmmOp → Prop
  | .mapPage virt phys flags => pdIndex virt < 1023 ∧ phys < 2 ^ 32 ∧ flags % 2 = 1
  | .unmapPage virt => pdIndex virt < 1023

def VmmStep (m : Machine) (op : VmmOp) (m' : Machine) : Prop :=
  op.Allowed ∧ ∃ status, op.exec m = some (status, m')

/-- What `vmm_map_page` promises: three outcomes, each with its exact condition, a
translation that changes at one page only, and errors without any effect. -/
structure MapMeets (m : Machine) (virt phys : Nat) (status : KernelStatus) (m' : Machine) :
    Prop where
  outcome : status = .ok ∨ status = .alreadyMapped ∨ status = .outOfMemory
  done : status = .ok → ∀ q < windowPage,
    m'.tr q = if q = virt / 4096 then some (phys / 4096) else m.tr q
  refused : status = .alreadyMapped ↔ ∃ f, m.tr (virt / 4096) = some f ∧ f ≠ phys / 4096
  out : status = .outOfMemory ↔ m.table (pdIndex virt) = none ∧ ∀ b, ¬ Free m.pmm b
  unchanged : status ≠ .ok → m' = m

/-- What `vmm_unmap_page` promises. -/
structure UnmapMeets (m : Machine) (virt : Nat) (status : KernelStatus) (m' : Machine) : Prop where
  done : status = .ok ↔ m.tr (virt / 4096) ≠ none
  removed : ∀ q < windowPage, m'.tr q = if q = virt / 4096 then none else m.tr q
  unchanged : status ≠ .ok → m' = m

theorem Sound.mapPage_meets {m : Machine} (h : Sound m) {virt phys flags : Nat}
    (hv : pdIndex virt < 1023) (hp : phys < 2 ^ 32) (hflags : flags % 2 = 1) :
    ∃ status m', vmmMapPage m virt phys flags = some (status, m') ∧ Sound m' ∧
      MapMeets m virt phys status m' := by
  rcases vmmMapPage_spec h hv hp hflags with ⟨hother, hrun⟩ | ⟨hnone, hfull, hrun⟩ |
    ⟨hroom, m', hrun, hmapped⟩
  · refine ⟨_, m, hrun, h, Or.inr (Or.inl rfl), nofun, ⟨fun _ => hother, fun _ => rfl⟩, ⟨nofun, ?_⟩,
      fun _ => rfl⟩
    rintro ⟨hnone, -⟩
    obtain ⟨f, hf, -⟩ := hother
    rw [tr_of_no_table (by rw [← pdIndex_eq]; exact hnone)] at hf
    cases hf
  · refine ⟨_, m, hrun, h, Or.inr (Or.inr rfl), nofun, ⟨nofun, ?_⟩, ⟨fun _ => ⟨hnone, hfull⟩,
      fun _ => rfl⟩, fun _ => rfl⟩
    rintro ⟨f, hf, -⟩
    rw [tr_of_no_table (by rw [← pdIndex_eq]; exact hnone)] at hf
    cases hf
  · refine ⟨_, m', hrun, hmapped.sound, Or.inl rfl, fun _ => hmapped.tr, ⟨nofun, ?_⟩, ⟨nofun, ?_⟩,
      fun hne => absurd rfl hne⟩
    · rintro ⟨f, hf, hne⟩
      rcases hmapped.before with hb | hb
      · rw [hb] at hf
        cases hf
      · rw [hb] at hf
        exact absurd (Option.some.inj hf).symm hne
    · rintro ⟨hnone, hfull⟩
      rcases hroom with hsome | ⟨b, hb⟩
      · exact absurd hnone hsome
      · exact absurd hb (hfull b)

theorem Sound.unmapPage_meets {m : Machine} (h : Sound m) {virt : Nat} (hv : pdIndex virt < 1023) :
    ∃ status m', vmmUnmapPage m virt = some (status, m') ∧ Sound m' ∧
      UnmapMeets m virt status m' := by
  rcases vmmUnmapPage_spec h hv with ⟨hnone, hrun⟩ | ⟨hsome, m', hrun, hun⟩
  · refine ⟨_, m, hrun, h, ⟨nofun, fun hne => absurd hnone hne⟩, ?_, fun _ => rfl⟩
    intro q _
    split
    · rename_i heq
      rw [heq, hnone]
    · rfl
  · exact ⟨_, m', hrun, hun.sound, ⟨fun _ => hsome, fun _ => rfl⟩, hun.tr, fun hne => absurd rfl hne⟩

theorem VmmStep.sound {m m' : Machine} {op : VmmOp} (hstep : VmmStep m op m') (h : Sound m) :
    Sound m' := by
  obtain ⟨hop, status, hrun⟩ := hstep
  cases op with
  | mapPage virt phys flags =>
      obtain ⟨st, m'', hrun', hsound, -⟩ := h.mapPage_meets hop.1 hop.2.1 hop.2.2
      cases hrun.symm.trans hrun'
      exact hsound
  | unmapPage virt =>
      obtain ⟨st, m'', hrun', hsound, -⟩ := h.unmapPage_meets hop
      cases hrun.symm.trans hrun'
      exact hsound

/-- In every state of every run from a sound machine, each of the three functions
meets its specification, without a page fault. -/
theorem sound_run_meets {start m : Machine} (hstart : Sound start)
    (run : Transition.Run VmmStep start m) :
    Sound m ∧
      (∀ virt phys flags, pdIndex virt < 1023 → phys < 2 ^ 32 → flags % 2 = 1 →
        ∃ status m', vmmMapPage m virt phys flags = some (status, m') ∧ Sound m' ∧
          MapMeets m virt phys status m') ∧
      (∀ virt, pdIndex virt < 1023 →
        ∃ status m', vmmUnmapPage m virt = some (status, m') ∧ Sound m' ∧
          UnmapMeets m virt status m') ∧
      ∀ virt, pdIndex virt < 1023 → vmmGetPhysicalAddr m virt =
        some (match m.tr (virt / 4096) with
          | none => 0
          | some f => f * 4096 + virt % 4096) := by
  have hsound : Sound m := run.invariant (fun _ _ _ hstep h => hstep.sound h) hstart
  exact ⟨hsound, fun _ _ _ hv hp hflags => hsound.mapPage_meets hv hp hflags,
    fun _ hv => hsound.unmapPage_meets hv, fun _ hv => vmmGetPhysicalAddr_spec hsound hv⟩

/-- Eight frames with the directory in frame 5 and no page table; `bits` is the one
byte of the bitmap. -/
def smallMachine (bits : BitVec 8) (freePages : Nat) : Machine :=
  { pmm :=
      { bitsAddr := 0x200000, bits := fun _ => bits, size := 1, totalPages := 8
        freePages := freePages, usedPages := 8 - freePages }
    frames := fun f i => if f = 5 ∧ i = 1023 then 0x5003#32 else 0
    cr3 := 5, kernelPageDirectory := 5, pagingEnabled := true }

theorem smallMachine_table (bits : BitVec 8) (freePages : Nat) {i : Nat} (hi : i < 1023) :
    (smallMachine bits freePages).table i = none := by
  have hword : (smallMachine bits freePages).word 5 i = 0 := by
    simp [Machine.word, smallMachine, hi.ne]
  unfold Machine.table
  rw [show (smallMachine bits freePages).cr3 = 5 from rfl, hword]
  rfl

theorem smallMachine_tablesOk (bits : BitVec 8) (freePages : Nat) :
    TablesOk (smallMachine bits freePages) := by
  refine ⟨by simp [Machine.table, Machine.word, smallMachine, decode, present, entryFrame], ?_, ?_,
    ?_⟩
  · intro i hi f hf
    rw [smallMachine_table bits freePages hi] at hf
    cases hf
  · intro i hi j _ f hf
    rw [smallMachine_table bits freePages hi] at hf
    cases hf
  · intro i hi hf
    rw [smallMachine_table bits freePages hi] at hf
    cases hf

theorem smallMachine_sound : Sound (smallMachine 0x21#8 6) := by
  refine ⟨rfl, ⟨by decide, by decide, by decide, ?_, by decide, by decide⟩,
    smallMachine_tablesOk _ _, by decide⟩
  intro b hb hbs
  exact absurd hbs (Nat.not_lt.mpr hb)

/-- The first mapping below 4 MiB enters a page table in slot 0, and the page of the
window that shows this table becomes mapped as well. -/
theorem smallMachine_window_changes :
    ∃ m', vmmMapPage (smallMachine 0x21#8 6) 0x1000 0x3000 3 = some (.ok, m') ∧
      (smallMachine 0x21#8 6).tr windowPage = none ∧ m'.tr windowPage ≠ none := by
  have hbefore : (smallMachine 0x21#8 6).tr windowPage = none := by decide
  rcases @vmmMapPage_spec _ smallMachine_sound 0x1000 0x3000 3
    (by decide) (by decide) (by decide) with ⟨⟨f, hf, -⟩, -⟩ | ⟨-, hfull, -⟩ | ⟨-, m', hrun, hm⟩
  · have hnone : (smallMachine 0x21#8 6).tr (0x1000 / 4096) = none := by decide
    rw [hnone] at hf
    cases hf
  · exact absurd (by decide : Free (smallMachine 0x21#8 6).pmm 1) (hfull 1)
  · refine ⟨m', hrun, hbefore, ?_⟩
    have hself := hm.sound.tables.selfMap
    rcases hm.tables with ⟨-, hkept⟩ | ⟨f, -, -, hadd⟩
    · -- the page itself is mapped now, so its table exists
      have htr := hm.tr 1 (by decide)
      rw [if_pos (by decide), tr_of_no_table (by
        rw [hkept _ (by decide)]; exact smallMachine_table _ _ (by decide))] at htr
      cases htr
    · have htable := hadd 0 (by decide)
      rw [if_pos (by decide)] at htable
      rw [tr_of_table (f := m'.cr3) hself]
      exact fun hc => Option.some_ne_none f (htable.symm.trans hc)

/-- The page-table conditions alone are not enough. Entering a table changes the
window; a bitmap with page 0 free makes the out-of-memory answer change the
allocator; and an unmarked directory frame is handed out as a page table, so that
clearing it destroys the self-map and faults. -/
theorem tablesOk_not_enough :
    (TablesOk (smallMachine 0x21#8 6) ∧
      ∃ m', vmmMapPage (smallMachine 0x21#8 6) 0x1000 0x3000 3 = some (.ok, m') ∧
        (smallMachine 0x21#8 6).tr windowPage = none ∧ m'.tr windowPage ≠ none) ∧
    (TablesOk (smallMachine 0xFE#8 1) ∧
      ∃ m', vmmMapPage (smallMachine 0xFE#8 1) 0x1000 0x3000 3 = some (.outOfMemory, m') ∧
        (smallMachine 0xFE#8 1).pmm.freePages = 1 ∧ m'.pmm.freePages = 0) ∧
    TablesOk (smallMachine 0xDF#8 1) ∧
      vmmMapPage (smallMachine 0xDF#8 1) 0x1000 0x3000 3 = none := by
  refine ⟨⟨smallMachine_tablesOk _ _, smallMachine_window_changes⟩,
    ⟨smallMachine_tablesOk _ _, _, rfl, rfl, rfl⟩, smallMachine_tablesOk _ _, ?_⟩
  exact Option.isNone_iff_eq_none.mp (by decide +kernel)

theorem sound_run_meets_small :
    ∃ m, Transition.Run VmmStep (smallMachine 0x21#8 6) m ∧ Sound m ∧ m.tr 1 = some 3 ∧
      vmmGetPhysicalAddr m 0x1234 = some 0x3234 := by
  obtain ⟨-, hmap, -, -⟩ := sound_run_meets smallMachine_sound (Transition.Run.refl _)
  obtain ⟨status, m, hrun, hsound, hmeets⟩ := hmap 0x1000 0x3000 3 (by decide) (by decide) (by decide)
  have hrun' : Transition.Run VmmStep (smallMachine 0x21#8 6) m :=
    (Transition.Run.refl _).snoc (a := .mapPage 0x1000 0x3000 3)
      ⟨⟨by decide, by decide, by decide⟩, status, hrun⟩
  have hok : status = .ok := by
    rcases hmeets.outcome with hok | hrefused | hout
    · exact hok
    · obtain ⟨f, hf, -⟩ := hmeets.refused.mp hrefused
      have hnone : (smallMachine 0x21#8 6).tr (0x1000 / 4096) = none := by decide
      rw [hnone] at hf
      cases hf
    · exact absurd (by decide : Free (smallMachine 0x21#8 6).pmm 1) ((hmeets.out.mp hout).2 1)
  have htr : m.tr 1 = some 3 := hmeets.done hok 1 (by decide)
  obtain ⟨-, -, -, hget⟩ := sound_run_meets smallMachine_sound hrun'
  refine ⟨m, hrun', hsound, htr, ?_⟩
  rw [hget 0x1234 (by decide), htr]

end Frostix.Vmm
