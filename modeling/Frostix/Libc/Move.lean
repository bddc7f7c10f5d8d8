import Frostix.Lib.ByteMemory
import Frostix.Lib.Machine32
import Frostix.Lib.CellStores

/-!
`memcpy` and `memmove`. Both copy byte by byte in place; `memmove` goes up or down, so that
no byte is overwritten before it is read. -/
namespace Frostix.Libc

open Machine32 ByteMemory CellStores

/-- The copying loops, for the indices in the order in which they are taken. -/
def copyBytes (m : Mem) (dest src : Nat) (is : List Nat) : Mem :=
  is.foldl (fun m i => store8 m (wrap (dest + i)) (m (wrap (src + i)))) m

/-- Returns `dest`; nothing is copied from or to the null pointer. -/
def memcpy (m : Mem) (dest src num : Nat) : Nat × Mem :=
  if dest = 0 ∨ src = 0 ∨ num = 0 then (dest, m)
  else (dest, copyBytes m dest src (List.range num))

def memmove (m : Mem) (dest src num : Nat) : Nat × Mem :=
  if dest = 0 ∨ src = 0 ∨ num = 0 then (dest, m)
  else if dest < src then (dest, copyBytes m dest src (List.range num))
  else if src < dest then (dest, copyBytes m dest src (List.range num).reverse)
  else (dest, m)

/-- The bytes that are copied, each with the byte that it is copied from. -/
def bytePairs (dest src : Nat) (is : List Nat) : List (Nat × Nat) := is.map fun i => (dest + i, src + i)

variable {m : Mem} {dest src num : Nat} {is : List Nat}

theorem copyBytes_eq_foldl (hdest : dest + num ≤ 2 ^ 32) (hsrc : src + num ≤ 2 ^ 32) (his : ∀ i ∈ is, i < num) :
    copyBytes m dest src is = is.foldl (fun m i => store8 m (dest + i) (m (src + i))) m := by
  induction is generalizing m with
  | nil => rfl
  | cons i is ih =>
      have hi := his i List.mem_cons_self
      rw [copyBytes, List.foldl_cons, List.foldl_cons, wrap_of_lt (by omega), wrap_of_lt (by omega)]
      exact ih fun j hj => his j (List.mem_cons_of_mem i hj)

theorem copyBytes_eq (hdest : dest + num ≤ 2 ^ 32) (hsrc : src + num ≤ 2 ^ 32) (his : ∀ i ∈ is, i < num) :
    copyBytes m dest src is = copyCells m (bytePairs dest src is) := by
  have hstore : ∀ (m : Mem) a b, store8 m a b = Function.update m a b := by
    intro m a b
    funext x
    rw [store8, Function.update_apply]
  rw [copyBytes_eq_foldl hdest hsrc his, copyCells, bytePairs, List.foldl_map]
  simp only [hstore]

theorem copyBytes_simultaneous (hdest : dest + num ≤ 2 ^ 32) (hsrc : src + num ≤ 2 ^ 32) (his : ∀ i ∈ is, i < num)
    (hnodup : is.Nodup) (hfresh : is.Pairwise fun i j => dest + i ≠ src + j) :
    Simultaneous m (copyBytes m dest src is) (bytePairs dest src is) := by
  have htargets : ((bytePairs dest src is).map Prod.fst).Nodup := by
    rw [bytePairs, List.map_map]
    exact hnodup.map (add_right_injective dest)
  rw [copyBytes_eq hdest hsrc his, copyCells_simultaneous_iff m htargets, bytePairs, List.pairwise_map]
  exact hfresh.imp fun hne heq => absurd heq hne

theorem memmove_simultaneous (hdest : dest ≠ 0) (hsrc : src ≠ 0) (hd : dest + num ≤ 2 ^ 32)
    (hs : src + num ≤ 2 ^ 32) :
    Simultaneous m (memmove m dest src num).2 (bytePairs dest src (List.range num)) := by
  have hrange : ∀ i ∈ List.range num, i < num := fun i hi => List.mem_range.mp hi
  by_cases hnum : num = 0
  · rw [memmove, if_pos (Or.inr (Or.inr hnum)), hnum]
    exact ⟨fun p hp => absurd hp List.not_mem_nil, fun a _ => rfl⟩
  · rw [memmove, if_neg (by simp [hdest, hsrc, hnum])]
    rcases Nat.lt_trichotomy dest src with hlt | heq | hgt
    · -- upwards: the bytes still to be read lie above the one that is written
      rw [if_pos hlt]
      apply copyBytes_simultaneous hd hs hrange List.nodup_range
      exact List.pairwise_lt_range.imp fun hij => by omega
    · rw [if_neg (by omega), if_neg (by omega), heq]
      refine ⟨fun p hp => ?_, fun a _ => rfl⟩
      obtain ⟨i, _, rfl⟩ := List.mem_map.mp hp
      rfl
    · -- downwards: they lie below it
      rw [if_neg (by omega), if_pos hgt]
      have hdown : Simultaneous m (copyBytes m dest src (List.range num).reverse)
          (bytePairs dest src (List.range num).reverse) := by
        apply copyBytes_simultaneous hd hs (fun i hi => hrange i (List.mem_reverse.mp hi))
          (List.nodup_reverse.mpr List.nodup_range)
        rw [List.pairwise_reverse]
        exact List.pairwise_lt_range.imp fun hij => by omega
      exact hdown.perm ((List.reverse_perm _).map _)

theorem memcpy_simultaneous (hdest : dest ≠ 0) (hsrc : src ≠ 0) (hd : dest + num ≤ 2 ^ 32)
    (hs : src + num ≤ 2 ^ 32)
    (hapart : dest + num ≤ src ∨ src + num ≤ dest) :
    Simultaneous m (memcpy m dest src num).2 (bytePairs dest src (List.range num)) := by
  by_cases hnum : num = 0
  · rw [memcpy, if_pos (Or.inr (Or.inr hnum)), hnum]
    exact ⟨fun p hp => absurd hp List.not_mem_nil, fun a _ => rfl⟩
  · rw [memcpy, if_neg (by simp [hdest, hsrc, hnum])]
    apply copyBytes_simultaneous hd hs (fun i hi => List.mem_range.mp hi) List.nodup_range
    refine List.pairwise_of_forall_mem_list fun i hi j hj => ?_
    rw [List.mem_range] at hi hj
    omega

/-- `memmove` for every overlap, and `memcpy` where there is none. -/
theorem memmove_spec (m : Mem) (hdest : dest ≠ 0) (hsrc : src ≠ 0) (hd : dest + num ≤ 2 ^ 32)
    (hs : src + num ≤ 2 ^ 32) :
    (∀ i < num, (memmove m dest src num).2 (dest + i) = m (src + i)) ∧
      (∀ a, ¬(dest ≤ a ∧ a < dest + num) → (memmove m dest src num).2 a = m a) ∧
      (dest + num ≤ src ∨ src + num ≤ dest → memcpy m dest src num = memmove m dest src num) := by
  have hmove := memmove_simultaneous (m := m) hdest hsrc hd hs
  refine ⟨fun i hi => ?_, fun a ha => ?_, fun hapart => ?_⟩
  · exact hmove.copied (dest + i, src + i) (List.mem_map_of_mem (List.mem_range.mpr hi))
  · apply hmove.kept
    intro hmem
    obtain ⟨p, hp, rfl⟩ := List.mem_map.mp hmem
    obtain ⟨i, hi, rfl⟩ := List.mem_map.mp hp
    have hlt := List.mem_range.mp hi
    exact ha ⟨Nat.le_add_right dest i, by simp only; omega⟩
  · have hcopy := memcpy_simultaneous (m := m) hdest hsrc hd hs hapart
    have hreturn : (memcpy m dest src num).1 = (memmove m dest src num).1 := by
      unfold memcpy memmove
      split_ifs <;> rfl
    exact Prod.ext hreturn (hcopy.unique hmove)

/-- Two ranges that share two bytes, one byte up. -/
theorem memmove_spec_up : (memmove (fun a => BitVec.ofNat 8 a) 9 8 3).2 11 = 10#8 ∧
    (memmove (fun a => BitVec.ofNat 8 a) 9 8 3).2 12 = 12#8 ∧
    memcpy (fun a => BitVec.ofNat 8 a) 16 8 3 = memmove (fun a => BitVec.ofNat 8 a) 16 8 3 := by
  have height : (8 : Nat) ≠ 0 := by decide
  have hfits : (8 : Nat) + 3 ≤ 2 ^ 32 := by decide
  obtain ⟨hcopied, hkept, -⟩ := memmove_spec (fun a => BitVec.ofNat 8 a) (show 9 ≠ 0 by decide) height
    (show 9 + 3 ≤ 2 ^ 32 by decide) hfits
  have hcopy := (memmove_spec (fun a => BitVec.ofNat 8 a) (show 16 ≠ 0 by decide) height
    (show 16 + 3 ≤ 2 ^ 32 by decide) hfits).2.2 (Or.inr (by decide))
  exact ⟨hcopied 2 (by decide), hkept 12 (by decide), hcopy⟩

end Frostix.Libc
