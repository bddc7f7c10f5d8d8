import Mathlib

/-!
First come, first served under a quota. Every request names a resource by its key; the
first request of a key takes one of `quota` units, later requests of the same key share
it, and once the units are used up nothing new is granted. -/
namespace Quota

variable {κ ρ : Type*} [DecidableEq κ]

/-- The keys held after a request of `k`. -/
def grant (quota : Nat) (held : Finset κ) (k : κ) : Finset κ :=
  if held.card < quota then insert k held else held

def granted (key : ρ → κ) (quota : Nat) (requests : List ρ) : Finset κ :=
  requests.foldl (fun held r => grant quota held (key r)) ∅

def Served (key : ρ → κ) (quota : Nat) (requests : List ρ) (r : ρ) : Prop :=
  r ∈ requests ∧ key r ∈ granted key quota requests

instance (key : ρ → κ) (quota : Nat) (requests : List ρ) [DecidableEq ρ] (r : ρ) :
    Decidable (Served key quota requests r) :=
  inferInstanceAs (Decidable (_ ∧ _))

section Grant
variable {quota : Nat} {held : Finset κ} {k : κ}

theorem grant_of_lt (h : held.card < quota) : grant quota held k = insert k held := if_pos h

theorem grant_of_full (h : quota ≤ held.card) : grant quota held k = held := if_neg (Nat.not_lt.mpr h)

theorem grant_of_mem (h : k ∈ held) : grant quota held k = held := by
  unfold grant
  split
  · exact Finset.insert_eq_of_mem h
  · rfl

theorem subset_grant : held ⊆ grant quota held k := by
  unfold grant
  split
  · exact Finset.subset_insert k held
  · exact Finset.Subset.refl held

theorem mem_grant_or_full : k ∈ grant quota held k ∨ quota ≤ held.card := by
  rcases Nat.lt_or_ge held.card quota with hlt | hge
  · left
    rw [grant_of_lt hlt]
    exact Finset.mem_insert_self k held
  · exact Or.inr hge

end Grant

section Requests
variable {key : ρ → κ} {quota : Nat} {requests later : List ρ} {r : ρ}

theorem granted_snoc :
    granted key quota (requests ++ [r]) = grant quota (granted key quota requests) (key r) := by
  rw [granted, List.foldl_append]
  rfl

theorem granted_append : granted key quota (requests ++ later) =
    later.foldl (fun held r => grant quota held (key r)) (granted key quota requests) := List.foldl_append

theorem granted_append_of_mem (h : ∀ s ∈ later, key s ∈ granted key quota requests) :
    granted key quota (requests ++ later) = granted key quota requests := by
  rw [granted_append]
  generalize granted key quota requests = held at h
  induction later with
  | nil => rfl
  | cons s rest ih =>
      rw [List.foldl_cons, grant_of_mem (h s List.mem_cons_self)]
      exact ih fun s' hs' => h s' (List.mem_cons_of_mem s hs')

theorem granted_append_of_full (h : quota ≤ (granted key quota requests).card) :
    granted key quota (requests ++ later) = granted key quota requests := by
  rw [granted_append]
  generalize granted key quota requests = held at h
  induction later with
  | nil => rfl
  | cons s rest ih =>
      rw [List.foldl_cons, grant_of_full h]
      exact ih

theorem granted_subset : granted key quota requests ⊆ granted key quota (requests ++ later) := by
  rw [granted_append]
  generalize granted key quota requests = held
  induction later generalizing held with
  | nil => exact Finset.Subset.refl held
  | cons s rest ih => exact subset_grant.trans (ih _)

theorem mem_granted_or_full (h : r ∈ requests) :
    key r ∈ granted key quota requests ∨ quota ≤ (granted key quota requests).card := by
  induction requests using List.reverseRecOn with
  | nil => exact absurd h List.not_mem_nil
  | append_singleton rest s ih =>
      rcases Nat.lt_or_ge (granted key quota rest).card quota with hlt | hge
      · left
        rcases List.mem_append.mp h with hrest | hlast
        · rcases ih hrest with hmem | hfull
          · exact granted_subset hmem
          · exact absurd hlt (Nat.not_lt.mpr hfull)
        · rw [List.mem_singleton.mp hlast, granted_snoc]
          exact mem_grant_or_full.resolve_right (Nat.not_le.mpr hlt)
      · rw [granted_append_of_full hge]
        exact Or.inr hge

theorem mem_granted_append_iff (h : r ∈ requests) :
    key r ∈ granted key quota (requests ++ later) ↔ key r ∈ granted key quota requests := by
  rcases @mem_granted_or_full _ _ _ key quota _ _ h with hmem | hfull
  · exact iff_of_true (granted_subset hmem) hmem
  · rw [granted_append_of_full hfull]

theorem served_snoc_iff {s : ρ} : Served key quota (requests ++ [r]) s ↔
    Served key quota requests s ∨ s = r ∧ key r ∈ granted key quota (requests ++ [r]) := by
  unfold Served
  rw [List.mem_append, List.mem_singleton]
  constructor
  · rintro ⟨hold | rfl, hkey⟩
    · exact Or.inl ⟨hold, (mem_granted_append_iff hold).mp hkey⟩
    · exact Or.inr ⟨rfl, hkey⟩
  · rintro (⟨hold, hkey⟩ | ⟨rfl, hkey⟩)
    · exact ⟨Or.inl hold, granted_subset hkey⟩
    · exact ⟨Or.inr rfl, hkey⟩

theorem granted_eq_image (h : (requests.map key).toFinset.card ≤ quota) :
    granted key quota requests = (requests.map key).toFinset := by
  induction requests using List.reverseRecOn with
  | nil => rfl
  | append_singleton rest s ih =>
      have hsub : (rest.map key).toFinset ⊆ ((rest ++ [s]).map key).toFinset := by
        intro k hk
        simp only [List.map_append, List.toFinset_append, Finset.mem_union]
        exact Or.inl hk
      have hinsert : ((rest ++ [s]).map key).toFinset = insert (key s) (rest.map key).toFinset := by
        ext k
        simp
      rw [granted_snoc, ih ((Finset.card_le_card hsub).trans h), hinsert]
      by_cases hold : key s ∈ (rest.map key).toFinset
      · rw [grant_of_mem hold, Finset.insert_eq_of_mem hold]
      · rw [grant_of_lt]
        rw [hinsert, Finset.card_insert_of_notMem hold] at h
        exact h

end Requests

end Quota
