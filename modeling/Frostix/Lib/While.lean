import Mathlib

/-!
Unbounded loops. The body of a loop maps a state to the next one or to the value
that the loop returns; it has no value at all where it accesses memory it must not
access. A loop is run with fuel, and it returns a value if some amount is enough. -/
namespace While

variable {σ ρ : Type*}

inductive Outcome (σ ρ : Type*) where
  | next (s : σ)
  | stop (r : ρ)

def iterate (body : σ → Option (Outcome σ ρ)) : Nat → σ → Option ρ
  | 0, _ => none
  | fuel + 1, s =>
      match body s with
      | none => none
      | some (.stop r) => some r
      | some (.next t) => iterate body fuel t

/-- The loop entered in `s` ends without a fault and returns `r`. -/
def Returns (body : σ → Option (Outcome σ ρ)) (s : σ) (r : ρ) : Prop := ∃ fuel, iterate body fuel s = some r

/-- The loop entered in `s` comes to `t` at the start of an iteration. -/
def Visits (body : σ → Option (Outcome σ ρ)) : σ → σ → Prop :=
  Relation.ReflTransGen fun s t => body s = some (.next t)

variable {body : σ → Option (Outcome σ ρ)} {s t : σ} {ts : List σ} {r : ρ}

theorem Returns.of_stop (h : body s = some (.stop r)) : Returns body s r := ⟨1, by simp [iterate, h]⟩

theorem Returns.of_next (h : body s = some (.next t)) (hrest : Returns body t r) : Returns body s r := by
  obtain ⟨fuel, hfuel⟩ := hrest
  exact ⟨fuel + 1, by simp [iterate, h, hfuel]⟩

theorem Returns.cases (h : Returns body s r) :
    body s = some (.stop r) ∨ ∃ t, body s = some (.next t) ∧ Returns body t r := by
  obtain ⟨fuel, hfuel⟩ := h
  cases fuel with
  | zero => cases hfuel
  | succ fuel =>
      rw [iterate] at hfuel
      split at hfuel
      · cases hfuel
      · rename_i hbody
        cases hfuel
        exact Or.inl hbody
      · rename_i t hbody
        exact Or.inr ⟨t, hbody, fuel, hfuel⟩

theorem returns_stop_iff {r' : ρ} (h : body s = some (.stop r')) : Returns body s r ↔ r' = r := by
  constructor
  · intro hret
    rcases hret.cases with hstop | ⟨t, hnext, -⟩
    · rw [h] at hstop
      cases hstop
      rfl
    · rw [h] at hnext
      cases hnext
  · rintro rfl
    exact .of_stop h

theorem returns_next_iff (h : body s = some (.next t)) : Returns body s r ↔ Returns body t r := by
  constructor
  · intro hret
    rcases hret.cases with hstop | ⟨u, hnext, hrest⟩
    · rw [h] at hstop
      cases hstop
    · rw [h] at hnext
      cases hnext
      exact hrest
  · exact .of_next h

theorem not_returns_of_none (h : body s = none) : ¬ Returns body s r := by
  intro hret
  rcases hret.cases with hstop | ⟨t, hnext, -⟩
  · rw [h] at hstop
    cases hstop
  · rw [h] at hnext
    cases hnext

theorem Returns.induction {motive : σ → ρ → Prop} (stop : ∀ s r, body s = some (.stop r) → motive s r)
    (next : ∀ s t r, body s = some (.next t) → Returns body t r → motive t r → motive s r)
    (h : Returns body s r) : motive s r := by
  obtain ⟨fuel, hfuel⟩ := h
  induction fuel generalizing s with
  | zero => cases hfuel
  | succ fuel ih =>
      rw [iterate] at hfuel
      split at hfuel
      · cases hfuel
      · rename_i hbody
        cases hfuel
        exact stop s r hbody
      · rename_i t hbody
        exact next s t r hbody ⟨fuel, hfuel⟩ (ih hfuel)

theorem Returns.of_visits (h : Returns body s r) (hv : Visits body s t) : Returns body t r := by
  induction hv with
  | refl => exact h
  | tail _ hstep ih => exact (returns_next_iff hstep).mp ih

theorem returns_of_measure (measure : σ → Nat)
    (progress : ∀ t, Visits body s t → ∃ o, body t = some o ∧ ∀ u, o = .next u → measure u < measure t) :
    ∃ r, Returns body s r := by
  induction hm : measure s using Nat.strong_induction_on generalizing s with
  | _ m ih =>
      obtain ⟨o, hbody, hlt⟩ := progress s Relation.ReflTransGen.refl
      cases o with
      | stop r => exact ⟨r, .of_stop hbody⟩
      | next u =>
          obtain ⟨r, hr⟩ := ih (measure u) (hm ▸ hlt u rfl)
            (fun t ht => progress t (Relation.ReflTransGen.head hbody ht)) rfl
          exact ⟨r, .of_next hbody hr⟩

/-- The loop entered in the first state of the list returns `r`; the list has the states in
which its iterations start. -/
inductive Trace (body : σ → Option (Outcome σ ρ)) : σ → List σ → ρ → Prop where
  | stop {s : σ} {r : ρ} : body s = some (.stop r) → Trace body s [s] r
  | next {s t : σ} {ts : List σ} {r : ρ} : body s = some (.next t) → Trace body t ts r → Trace body s (s :: ts) r

theorem Trace.head (h : Trace body s ts r) : ts.head? = some s := by
  cases h with
  | stop _ => rfl
  | next _ _ => rfl

theorem Trace.iterate_eq (h : Trace body s ts r) : ∀ n, iterate body (ts.length + n) s = some r := by
  induction h with
  | stop hbody =>
      intro n
      rw [List.length_singleton, Nat.add_comm, iterate, hbody]
  | next hbody _ ih =>
      intro n
      rw [List.length_cons, Nat.add_right_comm, iterate, hbody]
      exact ih n

theorem Trace.iterate_none (h : Trace body s ts r) : ∀ n < ts.length, iterate body n s = none := by
  induction h with
  | stop _ =>
      intro n hn
      obtain rfl : n = 0 := by simpa using hn
      rfl
  | next hbody _ ih =>
      intro n hn
      cases n with
      | zero => rfl
      | succ n =>
          rw [iterate, hbody]
          exact ih n (Nat.lt_of_succ_lt_succ hn)

end While
