import Frostix.Lib.Circular

/-!
The lists of `misc/list.h`. A memory of nodes represents a family of circles; each
operation is followed write by write and acts on the sequence of entries. -/
namespace Frostix.Misc

open Circular

/-- `struct list_head`. -/
structure ListHead where
  next : Nat
  prev : Nat

abbrev Nodes := Nat → ListHead

def setNext (m : Nodes) (node v : Nat) : Nodes := Function.update m node { m node with next := v }

def setPrev (m : Nodes) (node v : Nat) : Nodes := Function.update m node { m node with prev := v }

/-- `INIT_LIST_HEAD`. -/
def initListHead (m : Nodes) (head : Nat) : Nodes :=
  let m := setNext m head head
  setPrev m head head

/-- `__list_add`: four writes in the order of the source. -/
def listAddBetween (m : Nodes) (new prev next : Nat) : Nodes :=
  let m := setPrev m next new
  let m := setNext m new next
  let m := setPrev m new prev
  setNext m prev new

def listAdd (m : Nodes) (new head : Nat) : Nodes := listAddBetween m new head (m head).next

def listAddTail (m : Nodes) (new head : Nat) : Nodes := listAddBetween m new (m head).prev head

def listDelBetween (m : Nodes) (prev next : Nat) : Nodes :=
  let m := setPrev m next prev
  setNext m prev next

def listDel (m : Nodes) (entry : Nat) : Nodes :=
  let m := listDelBetween m (m entry).prev (m entry).next
  let m := setNext m entry 0
  setPrev m entry 0

def listDelInit (m : Nodes) (entry : Nat) : Nodes :=
  let m := listDelBetween m (m entry).prev (m entry).next
  initListHead m entry

def listEmpty (m : Nodes) (head : Nat) : Bool := (m head).next == head

def listMove (m : Nodes) (entry head : Nat) : Nodes :=
  let m := listDel m entry
  listAdd m entry head

def listMoveTail (m : Nodes) (entry head : Nat) : Nodes :=
  let m := listDel m entry
  listAddTail m entry head

def Lists (m : Nodes) (F : Family Nat) : Prop := Represents (fun a => (m a).next) (fun a => (m a).prev) F

variable {m : Nodes} {F : Family Nat} {new prev next entry head : Nat} {es : List Nat}

@[simp] theorem setNext_next (node v a : Nat) : (setNext m node v a).next = if a = node then v else (m a).next := by
  by_cases h : a = node <;> simp [setNext, h]

@[simp] theorem setNext_prev (node v a : Nat) : (setNext m node v a).prev = (m a).prev := by
  by_cases h : a = node <;> simp [setNext, h]

@[simp] theorem setPrev_prev (node v a : Nat) : (setPrev m node v a).prev = if a = node then v else (m a).prev := by
  by_cases h : a = node <;> simp [setPrev, h]

@[simp] theorem setPrev_next (node v a : Nat) : (setPrev m node v a).next = (m a).next := by
  by_cases h : a = node <;> simp [setPrev, h]

/-- The links after `__list_add`: the neighbours may be one node. -/
theorem listAddBetween_next (a : Nat) : (listAddBetween m new prev next a).next =
    if a = prev then new else if a = new then next else (m a).next := by
  simp [listAddBetween]

theorem listAddBetween_prev (a : Nat) : (listAddBetween m new prev next a).prev =
    if a = new then prev else if a = next then new else (m a).prev := by
  simp [listAddBetween]

theorem initListHead_next (a : Nat) : (initListHead m head a).next = if a = head then head else (m a).next := by
  simp [initListHead]

theorem initListHead_prev (a : Nat) : (initListHead m head a).prev = if a = head then head else (m a).prev := by
  simp [initListHead]

theorem listDel_next (a : Nat) : (listDel m entry a).next =
    if a = entry then 0 else if a = (m entry).prev then (m entry).next else (m a).next := by
  simp [listDel, listDelBetween]

theorem listDel_prev (a : Nat) : (listDel m entry a).prev =
    if a = entry then 0 else if a = (m entry).next then (m entry).prev else (m a).prev := by
  simp [listDel, listDelBetween]

theorem listDelInit_eq : listDelInit m entry = initListHead (listDel m entry) entry := by
  funext a
  by_cases h : a = entry <;> simp [listDelInit, listDel, initListHead, setNext, setPrev, h]

theorem Lists.init (hm : Lists m F) (hfree : Free F head) :
    Lists (initListHead m head) (Function.update F head (some [])) := by
  apply Represents.init hm hfree
  · rw [initListHead_next, if_pos rfl]
  · rw [initListHead_prev, if_pos rfl]
  · intro x hx
    rw [initListHead_next, initListHead_prev, if_neg hx, if_neg hx]
    exact ⟨rfl, rfl⟩

theorem Lists.between (hm : Lists m F) {xs ys : List Nat} (hhead : F head = some (xs ++ ys))
    (hfree : Free F new) :
    Lists (listAddBetween m new (before head xs) (ys.headD head))
      (Function.update F head (some (xs ++ new :: ys))) := by
  have hfresh := hfree head _ hhead
  have hprev : new ≠ before head xs := fun h => hfresh (h ▸ before_mem head xs ys)
  have hnext : ys.headD head ≠ new := fun h => hfresh (h ▸ headD_mem head xs ys)
  apply Represents.insert hm hhead hfree
  · rw [listAddBetween_next, if_pos rfl]
  · rw [listAddBetween_next, if_neg hprev, if_pos rfl]
  · rw [listAddBetween_prev, if_neg hnext, if_pos rfl]
  · rw [listAddBetween_prev, if_pos rfl]
  · intro x hx
    constructor
    · intro hxprev
      rw [listAddBetween_next, if_neg hxprev, if_neg hx]
    · intro hxnext
      rw [listAddBetween_prev, if_neg hx, if_neg hxnext]

theorem Lists.add (hm : Lists m F) (hhead : F head = some es) (hfree : Free F new) :
    Lists (listAdd m new head) (Function.update F head (some (new :: es))) := by
  have hnext : (m head).next = es.headD head := (Represents.circle hm hhead).head_links.1
  rw [listAdd, hnext]
  exact Lists.between hm (show F head = some ([] ++ es) from hhead) hfree

theorem Lists.addTail (hm : Lists m F) (hhead : F head = some es) (hfree : Free F new) :
    Lists (listAddTail m new head) (Function.update F head (some (es ++ [new]))) := by
  have hprev : (m head).prev = before head es := (Represents.circle hm hhead).head_links.2
  rw [listAddTail, hprev]
  have hwhole : F head = some (es ++ []) := by rw [hhead, List.append_nil]
  exact hm.between hwhole hfree

theorem Lists.del (hm : Lists m F) (hhead : F head = some es) (hentry : entry ∈ es) :
    Lists (listDel m entry) (F.remove entry) := by
  obtain ⟨xs, ys, rfl⟩ := List.append_of_mem hentry
  have hlinks := (Represents.circle hm hhead).links
  have hnotin := (Represents.circle hm hhead).notMem
  have hprev : before head xs ≠ entry := fun h => hnotin (h ▸ before_mem head xs ys)
  have hnext : ys.headD head ≠ entry := fun h => hnotin (h ▸ headD_mem head xs ys)
  rw [Represents.remove_eq hm hhead]
  apply Represents.remove hm hhead
  · rw [listDel_next, if_neg hprev, hlinks.2, if_pos rfl, hlinks.1]
  · rw [listDel_prev, if_neg hnext, hlinks.1, if_pos rfl, hlinks.2]
  · intro x hx
    rw [listDel_next, listDel_prev, if_neg hx, if_neg hx, hlinks.1, hlinks.2]
    exact ⟨fun hxprev => if_neg hxprev, fun hxnext => if_neg hxnext⟩

theorem Lists.free_remove (hm : Lists m F) (hhead : F head = some es) (hentry : entry ∈ es) :
    Free (F.remove entry) entry := by
  obtain ⟨xs, ys, rfl⟩ := List.append_of_mem hentry
  exact Represents.free_remove hm hhead

theorem Lists.delInit (hm : Lists m F) (hhead : F head = some es) (hentry : entry ∈ es) :
    Lists (listDelInit m entry) (Function.update (F.remove entry) entry (some [])) := by
  rw [listDelInit_eq]
  exact (hm.del hhead hentry).init (hm.free_remove hhead hentry)

theorem Lists.empty_iff (hm : Lists m F) (hhead : F head = some es) : listEmpty m head = true ↔ es = [] := by
  have hcircle := Represents.circle hm hhead
  have hnext : (m head).next = es.headD head := hcircle.head_links.1
  rw [listEmpty, beq_iff_eq, hnext]
  cases es with
  | nil => exact iff_of_true rfl rfl
  | cons e es =>
      refine iff_of_false (fun h => ?_) (List.cons_ne_nil e es)
      exact (List.nodup_cons.mp hcircle.nodup).1 (h ▸ List.mem_cons_self)

theorem Lists.moves (hm : Lists m F) {home : Nat} {old : List Nat} (hhome : F home = some old)
    (hentry : entry ∈ old) (hhead : F head = some es) :
    Lists (listMove m entry head) (Function.update (F.remove entry) head (some (entry :: es.erase entry))) ∧
      Lists (listMoveTail m entry head) (Function.update (F.remove entry) head (some (es.erase entry ++ [entry]))) := by
  have hdel := hm.del hhome hentry
  have hfree := hm.free_remove hhome hentry
  have hrest : F.remove entry head = some (es.erase entry) := by rw [Family.remove, hhead, Option.map_some]
  exact ⟨hdel.add hrest hfree, hdel.addTail hrest hfree⟩

theorem Lists.requeue (hm : Lists m F) {home : Nat} {old : List Nat} (hhome : F home = some old)
    (hentry : entry ∈ old) (hhead : F head = some es) :
    Lists (listAddTail (listDelInit m entry) entry head)
      (Function.update (F.remove entry) head (some (es.erase entry ++ [entry]))) := by
  have hfree := hm.free_remove hhome hentry
  have hnone : F.remove entry entry = none := by
    cases hself : F.remove entry entry with
    | none => rfl
    | some l => exact absurd List.mem_cons_self (hfree entry l hself)
  have hforget := Represents.forget (hm.delInit hhome hentry) entry
  rw [Function.update_idem, ← hnone, Function.update_eq_self] at hforget
  have hrest : F.remove entry head = some (es.erase entry) := by rw [Family.remove, hhead, Option.map_some]
  exact Lists.addTail hforget hrest hfree

/-- Every operation acts on the sequences; the other lists stay, and both directions agree. -/
theorem list_operations (hm : Lists m F) :
    (∀ head, Free F head → Lists (initListHead m head) (Function.update F head (some []))) ∧
    (∀ new head es, F head = some es → Free F new →
      Lists (listAdd m new head) (Function.update F head (some (new :: es))) ∧
      Lists (listAddTail m new head) (Function.update F head (some (es ++ [new])))) ∧
    (∀ entry home es, F home = some es → entry ∈ es →
      Lists (listDel m entry) (F.remove entry) ∧ listDel m entry entry = ⟨0, 0⟩ ∧
      Lists (listDelInit m entry) (Function.update (F.remove entry) entry (some [])) ∧
      ∀ head es', F head = some es' →
        Lists (listMove m entry head) (Function.update (F.remove entry) head (some (entry :: es'.erase entry))) ∧
        Lists (listMoveTail m entry head)
          (Function.update (F.remove entry) head (some (es'.erase entry ++ [entry])))) ∧
    ∀ head es, F head = some es → (listEmpty m head = true ↔ es = []) := by
  refine ⟨fun head hfree => hm.init hfree, fun new head es hhead hfree => ⟨hm.add hhead hfree, hm.addTail hhead hfree⟩,
    fun entry home es hhome hentry => ⟨hm.del hhome hentry, ?_, hm.delInit hhome hentry, ?_⟩,
    fun head es hhead => hm.empty_iff hhead⟩
  · simp [listDel, setNext, setPrev]
  · exact fun head es' hhead => hm.moves hhome hentry hhead

def twoNodes : Nodes := fun a =>
  if a = 8 then ⟨24, 32⟩ else if a = 24 then ⟨32, 8⟩ else if a = 32 then ⟨8, 24⟩ else ⟨a, a⟩

def twoLists : Family Nat := fun h => if h = 8 then some [24, 32] else if h = 16 then some [] else none

theorem twoLists_cases {h : Nat} {es : List Nat} (hh : twoLists h = some es) :
    (h = 8 ∧ es = [24, 32]) ∨ (h = 16 ∧ es = []) := by
  unfold twoLists at hh
  split_ifs at hh with h8 h16
  · exact Or.inl ⟨h8, (Option.some.inj hh).symm⟩
  · exact Or.inr ⟨h16, (Option.some.inj hh).symm⟩

theorem lists_two : Lists twoNodes twoLists where
  circle := by
    intro h es hh
    rcases twoLists_cases hh with ⟨rfl, rfl⟩ | ⟨rfl, rfl⟩
    · exact ⟨by simp [Seg, twoNodes], by simp [Seg, twoNodes], by decide⟩
    · exact Circle.single rfl rfl
  apart := by
    intro h h' es es' x hh hh' hx hx'
    rcases twoLists_cases hh with ⟨rfl, rfl⟩ | ⟨rfl, rfl⟩ <;> rcases twoLists_cases hh' with ⟨rfl, rfl⟩ | ⟨rfl, rfl⟩
    · rfl
    · rw [List.mem_singleton.mp hx'] at hx
      exact absurd hx (by decide)
    · rw [List.mem_singleton.mp hx] at hx'
      exact absurd hx' (by decide)
    · rfl

/-- A move within one list. -/
theorem list_operations_two :
    Lists (listMoveTail twoNodes 24 8) (Function.update (twoLists.remove 24) 8 (some [32, 24])) ∧
      listEmpty twoNodes 8 = false ∧ listEmpty twoNodes 16 = true := by
  obtain ⟨-, -, hdel, hempty⟩ := list_operations lists_two
  refine ⟨((hdel 24 8 _ rfl (by decide)).2.2.2 8 _ rfl).2, ?_, (hempty 16 _ rfl).mpr rfl⟩
  exact Bool.eq_false_iff.mpr fun h => absurd ((hempty 8 _ rfl).mp h) (List.cons_ne_nil _ _)

end Frostix.Misc
