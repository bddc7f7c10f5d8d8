import Mathlib

/-!
Families of circular doubly linked lists. A circle is a head and its entries: the forward
links lead from the head through the entries and back to the head, and the backward links
lead the other way round. -/
namespace Circular

variable {α : Type*} {f f' nx nx' pv pv' : α → α} {xs ys es : List α} {h e t new : α}

/-- Each cell points to the next one, and the last one to `t`. -/
def Seg (f : α → α) : List α → α → Prop
  | [], _ => True
  | c :: cs, t => f c = cs.headD t ∧ Seg f cs t

theorem headD_append (xs ys : List α) (t : α) : (xs ++ ys).headD t = xs.headD (ys.headD t) := by
  cases xs with
  | nil => rfl
  | cons x xs => rfl

theorem Seg.append : Seg f (xs ++ ys) t ↔ Seg f xs (ys.headD t) ∧ Seg f ys t := by
  induction xs with
  | nil => exact ⟨fun hys => ⟨trivial, hys⟩, fun hboth => hboth.2⟩
  | cons x xs ih => rw [List.cons_append, Seg, Seg, ih, headD_append, and_assoc]

theorem Seg.congr (hseg : Seg f xs t) (hsame : ∀ x ∈ xs, f' x = f x) : Seg f' xs t := by
  induction xs with
  | nil => trivial
  | cons x xs ih =>
      exact ⟨(hsame x List.mem_cons_self).trans hseg.1, ih hseg.2 fun y hy => hsame y (List.mem_cons_of_mem x hy)⟩

def before (h : α) (xs : List α) : α := xs.reverse.headD h

theorem exists_concat_before (h : α) (xs : List α) : ∃ us, h :: xs = us ++ [before h xs] := by
  rcases List.eq_nil_or_concat xs with rfl | ⟨us, x, rfl⟩
  · exact ⟨[], rfl⟩
  · exact ⟨h :: us, by simp [before]⟩

theorem ne_before {us : List α} (hus : h :: xs = us ++ [before h xs]) (hnodup : (h :: (xs ++ ys)).Nodup) {x : α}
    (hx : x ∈ us ∨ x ∈ ys) : x ≠ before h xs := by
  rw [← List.cons_append, hus, List.append_assoc, List.singleton_append] at hnodup
  rintro rfl
  have hmid := List.nodup_middle.mp hnodup
  exact (List.nodup_cons.mp hmid).1 (List.mem_append.mpr hx)

theorem Seg.insert (hseg : Seg f (h :: (xs ++ ys)) t) (hnodup : (h :: (xs ++ ys)).Nodup)
    (hbefore : f' (before h xs) = new) (hnew : f' new = ys.headD t)
    (hsame : ∀ x ∈ h :: (xs ++ ys), x ≠ before h xs → f' x = f x) : Seg f' (h :: (xs ++ new :: ys)) t := by
  obtain ⟨us, hus⟩ := exists_concat_before h xs
  have hmem : ∀ x, x ∈ us ∨ x ∈ ys → x ∈ h :: (xs ++ ys) := by
    intro x hx
    rw [← List.cons_append, hus]
    simp only [List.mem_append]
    tauto
  rw [← List.cons_append, hus, List.append_assoc, Seg.append] at hseg ⊢
  refine ⟨hseg.1.congr fun x hx => ?_, hbefore, hnew, hseg.2.2.congr fun x hx => ?_⟩
  · exact hsame x (hmem x (Or.inl hx)) (ne_before hus hnodup (Or.inl hx))
  · exact hsame x (hmem x (Or.inr hx)) (ne_before hus hnodup (Or.inr hx))

/-- The cell in front of `e` is turned to the one behind it. -/
theorem Seg.remove (hseg : Seg f (h :: (xs ++ e :: ys)) t) (hnodup : (h :: (xs ++ e :: ys)).Nodup)
    (hbefore : f' (before h xs) = ys.headD t)
    (hsame : ∀ x ∈ h :: (xs ++ ys), x ≠ before h xs → f' x = f x) : Seg f' (h :: (xs ++ ys)) t := by
  obtain ⟨us, hus⟩ := exists_concat_before h xs
  have hmem : ∀ x, x ∈ us ∨ x ∈ ys → x ∈ h :: (xs ++ ys) := by
    intro x hx
    rw [← List.cons_append, hus]
    simp only [List.mem_append]
    tauto
  rw [← List.cons_append, hus, List.append_assoc, Seg.append] at hseg ⊢
  refine ⟨hseg.1.congr fun x hx => ?_, hbefore, hseg.2.2.2.congr fun x hx => ?_⟩
  · exact hsame x (hmem x (Or.inl hx)) (ne_before hus hnodup (Or.inl hx))
  · exact hsame x (hmem x (Or.inr hx)) (ne_before hus hnodup (Or.inr (List.mem_cons_of_mem e hx)))

structure Circle (nx pv : α → α) (h : α) (es : List α) : Prop where
  forth : Seg nx (h :: es) h
  back : Seg pv (h :: es.reverse) h
  nodup : (h :: es).Nodup

theorem Circle.mirror (hc : Circle nx pv h es) : Circle pv nx h es.reverse where
  forth := hc.back
  back := (List.reverse_reverse es).symm ▸ hc.forth
  nodup := (List.Perm.cons h (List.reverse_perm es)).nodup_iff.mpr hc.nodup

theorem Circle.single (hnx : nx h = h) (hpv : pv h = h) : Circle nx pv h [] :=
  ⟨⟨hnx, trivial⟩, ⟨hpv, trivial⟩, List.nodup_singleton h⟩

theorem Circle.congr (hc : Circle nx pv h es) (hsame : ∀ x ∈ h :: es, nx' x = nx x ∧ pv' x = pv x) :
    Circle nx' pv' h es := by
  refine ⟨hc.forth.congr fun x hx => (hsame x hx).1, hc.back.congr fun x hx => (hsame x ?_).2, hc.nodup⟩
  simpa using hx

theorem Circle.links (hc : Circle nx pv h (xs ++ e :: ys)) : nx e = ys.headD h ∧ pv e = before h xs := by
  have hforth := hc.forth.2
  have hback := hc.back.2
  rw [List.reverse_append, List.reverse_cons, List.append_assoc] at hback
  exact ⟨(Seg.append.mp hforth).2.1, (Seg.append.mp hback).2.1⟩

theorem Circle.head_links (hc : Circle nx pv h es) : nx h = es.headD h ∧ pv h = before h es :=
  ⟨hc.forth.1, hc.back.1⟩

theorem perm_entry (h e : α) (xs ys : List α) : (h :: (xs ++ e :: ys)).Perm (e :: h :: (xs ++ ys)) :=
  (List.Perm.cons h List.perm_middle).trans (List.Perm.swap e h _)

theorem Circle.notMem (hc : Circle nx pv h (xs ++ e :: ys)) : e ∉ h :: (xs ++ ys) :=
  (List.nodup_cons.mp ((perm_entry h e xs ys).nodup_iff.mp hc.nodup)).1

theorem Circle.insert (hc : Circle nx pv h (xs ++ ys)) (hfresh : new ∉ h :: (xs ++ ys))
    (hnx : nx' (before h xs) = new) (hnxnew : nx' new = ys.headD h)
    (hpv : pv' (ys.headD h) = new) (hpvnew : pv' new = before h xs)
    (hsame : ∀ x ∈ h :: (xs ++ ys), (x ≠ before h xs → nx' x = nx x) ∧ (x ≠ ys.headD h → pv' x = pv x)) :
    Circle nx' pv' h (xs ++ new :: ys) := by
  have hmirror := hc.mirror
  rw [List.reverse_append] at hmirror
  have hbefore : before h ys.reverse = ys.headD h := by rw [before, List.reverse_reverse]
  refine ⟨hc.forth.insert hc.nodup hnx hnxnew fun x hx => (hsame x hx).1, ?_, ?_⟩
  · rw [List.reverse_append, List.reverse_cons, List.append_assoc, List.singleton_append]
    refine hmirror.forth.insert hmirror.nodup (hbefore ▸ hpv) hpvnew fun x hx hne => ?_
    refine (hsame x ?_).2 (hbefore ▸ hne)
    simp only [List.mem_cons, List.mem_append, List.mem_reverse] at hx ⊢
    tauto
  · exact (perm_entry h new xs ys).nodup_iff.mpr (List.nodup_cons.mpr ⟨hfresh, hc.nodup⟩)

theorem Circle.remove (hc : Circle nx pv h (xs ++ e :: ys))
    (hnx : nx' (before h xs) = ys.headD h) (hpv : pv' (ys.headD h) = before h xs)
    (hsame : ∀ x ∈ h :: (xs ++ ys), (x ≠ before h xs → nx' x = nx x) ∧ (x ≠ ys.headD h → pv' x = pv x)) :
    Circle nx' pv' h (xs ++ ys) := by
  have hmirror := hc.mirror
  rw [List.reverse_append, List.reverse_cons, List.append_assoc, List.singleton_append] at hmirror
  have hbefore : before h ys.reverse = ys.headD h := by rw [before, List.reverse_reverse]
  refine ⟨hc.forth.remove hc.nodup hnx fun x hx => (hsame x hx).1, ?_, ?_⟩
  · rw [List.reverse_append]
    refine hmirror.forth.remove hmirror.nodup (hbefore ▸ hpv) fun x hx hne => ?_
    refine (hsame x ?_).2 (hbefore ▸ hne)
    simp only [List.mem_cons, List.mem_append, List.mem_reverse] at hx ⊢
    tauto
  · exact hc.nodup.sublist (((List.sublist_cons_self e ys).append_left xs).cons_cons h)

abbrev Family (α : Type*) := α → Option (List α)

structure Represents (nx pv : α → α) (F : Family α) : Prop where
  circle : ∀ {h es}, F h = some es → Circle nx pv h es
  apart : ∀ {h h' es es' x}, F h = some es → F h' = some es' → x ∈ h :: es → x ∈ h' :: es' → h = h'

def Free (F : Family α) (x : α) : Prop := ∀ h es, F h = some es → x ∉ h :: es

theorem before_mem (h : α) (xs ys : List α) : before h xs ∈ h :: (xs ++ ys) := by
  obtain ⟨us, hus⟩ := exists_concat_before h xs
  rw [← List.cons_append, hus]
  simp

theorem headD_mem (h : α) (xs ys : List α) : ys.headD h ∈ h :: (xs ++ ys) := by
  cases ys with
  | nil => exact List.mem_cons_self
  | cons y ys => simp

variable [DecidableEq α] {F : Family α}

/-- One circle is replaced by cells that no other circle has, and the others are left alone. -/
theorem Represents.update (hF : Represents nx pv F) (hc : Circle nx' pv' h es)
    (hapart : ∀ x ∈ h :: es, ∀ h' es', h' ≠ h → F h' = some es' → x ∉ h' :: es')
    (hsame : ∀ h' es' x, h' ≠ h → F h' = some es' → x ∈ h' :: es' → nx' x = nx x ∧ pv' x = pv x) :
    Represents nx' pv' (Function.update F h (some es)) where
  circle := by
    intro k ks hk
    by_cases hkh : k = h
    · subst hkh
      rw [Function.update_self] at hk
      cases hk
      exact hc
    · rw [Function.update_of_ne hkh] at hk
      exact (hF.circle hk).congr fun x hx => hsame k ks x hkh hk hx
  apart := by
    intro k k' ks ks' x hk hk' hx hx'
    by_cases hkh : k = h <;> by_cases hkh' : k' = h
    · exact hkh.trans hkh'.symm
    · subst hkh
      rw [Function.update_self] at hk
      rw [Function.update_of_ne hkh'] at hk'
      cases hk
      exact absurd hx' (hapart x hx k' ks' hkh' hk')
    · subst hkh'
      rw [Function.update_self] at hk'
      rw [Function.update_of_ne hkh] at hk
      cases hk'
      exact absurd hx (hapart x hx' k ks hkh hk)
    · rw [Function.update_of_ne hkh] at hk
      rw [Function.update_of_ne hkh'] at hk'
      exact hF.apart hk hk' hx hx'

theorem Represents.forget (hF : Represents nx pv F) (h : α) : Represents nx pv (Function.update F h none) := by
  have hold : ∀ {k ks}, Function.update F h none k = some ks → F k = some ks := by
    intro k ks hk
    by_cases hkh : k = h
    · rw [hkh, Function.update_self] at hk
      cases hk
    · rwa [Function.update_of_ne hkh] at hk
  exact ⟨fun hk => hF.circle (hold hk), fun hk hk' => hF.apart (hold hk) (hold hk')⟩

theorem Represents.init (hF : Represents nx pv F) (hfree : Free F h) (hnx : nx' h = h) (hpv : pv' h = h)
    (hsame : ∀ x, x ≠ h → nx' x = nx x ∧ pv' x = pv x) : Represents nx' pv' (Function.update F h (some [])) := by
  refine hF.update (Circle.single hnx hpv) ?_ ?_
  · intro x hx h' es' _ hh'
    obtain rfl := List.mem_singleton.mp hx
    exact hfree h' es' hh'
  · intro h' es' x _ hh' hx
    apply hsame
    rintro rfl
    exact hfree h' es' hh' hx

theorem Represents.insert (hF : Represents nx pv F) (hh : F h = some (xs ++ ys)) (hfree : Free F new)
    (hnx : nx' (before h xs) = new) (hnxnew : nx' new = ys.headD h)
    (hpv : pv' (ys.headD h) = new) (hpvnew : pv' new = before h xs)
    (hsame : ∀ x, x ≠ new → (x ≠ before h xs → nx' x = nx x) ∧ (x ≠ ys.headD h → pv' x = pv x)) :
    Represents nx' pv' (Function.update F h (some (xs ++ new :: ys))) := by
  have hfresh := hfree h _ hh
  refine hF.update ((hF.circle hh).insert hfresh hnx hnxnew hpv hpvnew fun x hx => ?_) ?_ ?_
  · apply hsame
    rintro rfl
    exact hfresh hx
  · intro x hx h' es' hne hh' hx'
    by_cases hxnew : x = new
    · exact hfree h' es' hh' (hxnew ▸ hx')
    · have hxold : x ∈ h :: (xs ++ ys) := by
        simp only [List.mem_cons, List.mem_append] at hx ⊢
        tauto
      exact hne (hF.apart hh' hh hx' hxold)
  · intro h' es' x hne hh' hx
    have hnotin : x ∉ h :: (xs ++ ys) := fun hxh => hne (hF.apart hh' hh hx hxh)
    have hxnew : x ≠ new := by
      rintro rfl
      exact hfree h' es' hh' hx
    refine ⟨(hsame x hxnew).1 ?_, (hsame x hxnew).2 ?_⟩
    · rintro rfl
      exact hnotin (before_mem h xs ys)
    · rintro rfl
      exact hnotin (headD_mem h xs ys)

theorem Represents.remove (hF : Represents nx pv F) (hh : F h = some (xs ++ e :: ys))
    (hnx : nx' (before h xs) = ys.headD h) (hpv : pv' (ys.headD h) = before h xs)
    (hsame : ∀ x, x ≠ e → (x ≠ before h xs → nx' x = nx x) ∧ (x ≠ ys.headD h → pv' x = pv x)) :
    Represents nx' pv' (Function.update F h (some (xs ++ ys))) := by
  have hsub : ∀ x ∈ h :: (xs ++ ys), x ∈ h :: (xs ++ e :: ys) := by
    intro x hx
    simp only [List.mem_cons, List.mem_append] at hx ⊢
    tauto
  have he := (hF.circle hh).notMem
  refine hF.update ((hF.circle hh).remove hnx hpv fun x hx => ?_) ?_ ?_
  · apply hsame
    rintro rfl
    exact he hx
  · exact fun x hx h' es' hne hh' hx' => hne (hF.apart hh' hh hx' (hsub x hx))
  · intro h' es' x hne hh' hx
    have hnotin : x ∉ h :: (xs ++ e :: ys) := fun hxh => hne (hF.apart hh' hh hx hxh)
    have hxe : x ≠ e := by
      rintro rfl
      exact hnotin (by simp)
    refine ⟨(hsame x hxe).1 ?_, (hsame x hxe).2 ?_⟩
    · rintro rfl
      exact hnotin (before_mem h xs _)
    · rintro rfl
      exact hnotin (hsub _ (headD_mem h xs ys))

def Family.remove (F : Family α) (e : α) : Family α := fun h => (F h).map fun es => es.erase e

theorem Represents.remove_eq (hF : Represents nx pv F) (hh : F h = some (xs ++ e :: ys)) :
    F.remove e = Function.update F h (some (xs ++ ys)) := by
  funext k
  by_cases hkh : k = h
  · subst hkh
    have hxs : e ∉ xs := fun hmem => (hF.circle hh).notMem (List.mem_cons_of_mem _ (List.mem_append_left ys hmem))
    rw [Function.update_self, Family.remove, hh, Option.map_some, List.erase_append_right _ hxs,
      List.erase_cons_head]
  · rw [Function.update_of_ne hkh, Family.remove]
    cases hk : F k with
    | none => rfl
    | some ks =>
        have hks : e ∉ ks := fun hmem => hkh (hF.apart hk hh (List.mem_cons_of_mem k hmem) (by simp))
        rw [Option.map_some, List.erase_of_not_mem hks]

theorem Represents.free_remove (hF : Represents nx pv F) (hh : F h = some (xs ++ e :: ys)) :
    Free (F.remove e) e := by
  rw [hF.remove_eq hh]
  intro k ks hk
  by_cases hkh : k = h
  · subst hkh
    rw [Function.update_self] at hk
    cases hk
    exact (hF.circle hh).notMem
  · rw [Function.update_of_ne hkh] at hk
    exact fun hmem => hkh (hF.apart hk hh hmem (by simp))

end Circular
