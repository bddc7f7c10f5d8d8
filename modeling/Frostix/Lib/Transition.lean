import Mathlib

/-! Finite runs of a labelled transition system and the rule that turns a step
lemma into a run lemma; for calls with a result, the state after a list of them; for
calls that can fault, what holds after every call of a list. -/
namespace Transition

variable {S A : Type*}

/-- `t` is reached from `s` by finitely many labelled steps. -/
def Run (step : S → A → S → Prop) : S → S → Prop :=
  Relation.ReflTransGen fun s t => ∃ a, step s a t

theorem Run.refl {step : S → A → S → Prop} (s : S) : Run step s s := Relation.ReflTransGen.refl

theorem Run.snoc {step : S → A → S → Prop} {s t u : S} {a : A} (h : Run step s t)
    (hstep : step t a u) : Run step s u := Relation.ReflTransGen.tail h ⟨a, hstep⟩

theorem Run.cons {step : S → A → S → Prop} {s t u : S} {a : A} (hstep : step s a t)
    (h : Run step t u) : Run step s u := Relation.ReflTransGen.head ⟨a, hstep⟩ h

theorem Run.mono {B : Type*} {step : S → A → S → Prop} {step' : S → B → S → Prop}
    (h : ∀ s a t, step s a t → ∃ b, step' s b t) {s t : S} (run : Run step s t) : Run step' s t :=
  Relation.ReflTransGen.mono (fun s t ⟨a, hstep⟩ => h s a t hstep) s t run

theorem Run.invariant {step : S → A → S → Prop} {Inv : S → Prop}
    (preserves : ∀ s a t, step s a t → Inv s → Inv t) {s t : S} (h : Run step s t)
    (hs : Inv s) : Inv t := by
  induction h with
  | refl => exact hs
  | tail _ hlast ih =>
      obtain ⟨a, hstep⟩ := hlast
      exact preserves _ a _ hstep ih

def execAll {R : Type*} (exec : A → S → Option (R × S)) (start : Option S) : List A → Option S
  | [] => start
  | a :: earlier => (execAll exec start earlier).bind fun s => (exec a s).map Prod.snd

theorem execAll_cons {R : Type*} {exec : A → S → Option (R × S)} {start : Option S} {a : A}
    {earlier : List A} {t : S} (h : execAll exec start (a :: earlier) = some t) :
    ∃ s r, execAll exec start earlier = some s ∧ exec a s = some (r, t) := by
  obtain ⟨s, hs, hlast⟩ := Option.bind_eq_some_iff.mp h
  obtain ⟨⟨r, t'⟩, hexec, rfl⟩ := Option.map_eq_some_iff.mp hlast
  exact ⟨s, r, hs, hexec⟩

/-- `P` holds of every call of the list in the state before it. -/
def Throughout (next : S → A → S) (P : S → A → Prop) : S → List A → Prop
  | _, [] => True
  | s, a :: rest => P s a ∧ Throughout next P (next s a) rest

/-- Two conditions on calls agree along every list when they agree in the states of an
invariant that calls with the second one keep; and the invariant holds at the end. -/
theorem throughout_iff {next : S → A → S} {P Q : S → A → Prop} {Inv : S → Prop}
    (agree : ∀ s a, Inv s → (P s a ↔ Q s a)) (keeps : ∀ s a, Inv s → Q s a → Inv (next s a))
    (calls : List A) :
    ∀ s, Inv s → (Throughout next P s calls ↔ Throughout next Q s calls) ∧
      (Throughout next Q s calls → Inv (calls.foldl next s)) := by
  induction calls with
  | nil => exact fun s hs => ⟨Iff.rfl, fun _ => hs⟩
  | cons a rest ih =>
      intro s hs
      have hhead := agree s a hs
      refine ⟨⟨?_, ?_⟩, ?_⟩
      · rintro ⟨hP, hrest⟩
        have hQ := hhead.mp hP
        exact ⟨hQ, (ih _ (keeps s a hs hQ)).1.mp hrest⟩
      · rintro ⟨hQ, hrest⟩
        exact ⟨hhead.mpr hQ, (ih _ (keeps s a hs hQ)).1.mpr hrest⟩
      · rintro ⟨hQ, hrest⟩
        exact (ih _ (keeps s a hs hQ)).2 hrest

/-- Starting in `s`, no call of the list faults and `P` holds before, between and
after the calls. -/
def Always {E : Type*} (step : S → A → Except E S) (P : S → Prop) : S → List A → Prop
  | s, [] => P s
  | s, a :: rest => P s ∧ ∃ t, step s a = .ok t ∧ Always step P t rest

/-- `Always` speaks about the state after every initial part of the list. -/
theorem always_iff {E : Type*} {step : S → A → Except E S} {P : S → Prop} {s : S} {calls : List A} :
    Always step P s calls ↔
      ∀ seen, seen <+: calls → ∃ t, seen.foldlM step s = .ok t ∧ P t := by
  induction calls generalizing s with
  | nil =>
      constructor
      · intro h seen hseen
        rw [List.prefix_nil.mp hseen]
        exact ⟨s, rfl, h⟩
      · intro h
        obtain ⟨t, ht, hP⟩ := h [] List.prefix_rfl
        cases ht
        exact hP
  | cons a rest ih =>
      constructor
      · rintro ⟨hP, t, hstep, hrest⟩ seen hseen
        cases seen with
        | nil => exact ⟨s, rfl, hP⟩
        | cons b seen =>
            obtain ⟨rfl, hpre⟩ := List.cons_prefix_cons.mp hseen
            rw [List.foldlM_cons, hstep]
            exact ih.mp hrest seen hpre
      · intro h
        obtain ⟨u, hu, hP⟩ := h [] List.nil_prefix
        cases hu
        obtain ⟨t, ht, -⟩ := h [a] (List.cons_prefix_cons.mpr ⟨rfl, List.nil_prefix⟩)
        rw [List.foldlM_cons] at ht
        cases hstep : step s a with
        | error e =>
            rw [hstep] at ht
            cases ht
        | ok v =>
            refine ⟨hP, v, hstep, ih.mpr fun seen hseen => ?_⟩
            obtain ⟨w, hw, hPw⟩ := h (a :: seen) (List.cons_prefix_cons.mpr ⟨rfl, hseen⟩)
            rw [List.foldlM_cons, hstep] at hw
            exact ⟨w, hw, hPw⟩

end Transition
