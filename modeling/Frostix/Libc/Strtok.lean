import Frostix.Lib.ByteMemory
import Frostix.Lib.Fields
import Frostix.Libc

/-!
`strtok`: a scan of a string in memory that goes on from call to call. The static pointer
is null after the last token of a string, or points to the NUL if the string ends with
separators; in both cases there is no token left. A loop that does not end within as many
rounds as there are addresses never ends, and has no value. -/
namespace Frostix.Libc

open Machine32 ByteMemory Fields

def stringFuel : Nat := 2 ^ 32

def strchrLoop (m : Mem) (c : Byte) : Nat → Nat → Option Nat
  | 0, _ => none
  | fuel + 1, s =>
      if m s = 0#8 then some (if c = 0#8 then s else 0)
      else if m s = c then some s
      else strchrLoop m c fuel (wrap (s + 1))

def strchr (m : Mem) (s : Nat) (c : Byte) : Option Nat := if s = 0 then some 0 else strchrLoop m c stringFuel s

/-- The loops of `strtok`: on to the first byte that is no delimiter, or that is one. -/
def skipWhile (m : Mem) (delim : Nat) (isDelim : Bool) : Nat → Nat → Option Nat
  | 0, _ => none
  | fuel + 1, last =>
      if m last = 0#8 then some last
      else do
        let found ← strchr m delim (m last)
        if decide (found ≠ 0) = isDelim then skipWhile m delim isDelim fuel (wrap (last + 1)) else some last

/-- Memory and the static pointer `last` of `strtok`. -/
structure StrtokState where
  mem : Mem
  last : Nat

def strtok (st : StrtokState) (str delim : Nat) : Option (Nat × StrtokState) :=
  let m := st.mem
  let last := if str ≠ 0 then str else st.last
  if last = 0 ∨ m last = 0#8 then some (0, ⟨m, last⟩)
  else do
    let last ← skipWhile m delim true stringFuel last
    if m last = 0#8 then some (0, ⟨m, last⟩)
    else
      let start := last
      let last ← skipWhile m delim false stringFuel last
      if m last ≠ 0#8 then some (start, ⟨store8 m last 0#8, wrap (last + 1)⟩) else some (start, ⟨m, 0⟩)

/-- `strtok(str, p)` and then `strtok(NULL, q)` for the other delimiter strings. -/
def strtokCalls : StrtokState → Nat → List Nat → Option (List Nat × StrtokState)
  | st, _, [] => some ([], st)
  | st, str, p :: ps => do
      let (ret, st) ← strtok st str p
      let (rets, st) ← strtokCalls st 0 ps
      some (ret :: rets, st)

/-- The bytes from an address on, up to a NUL that is still in the address space. -/
def CString (m : Mem) : Nat → List Byte → Prop
  | a, [] => a < 2 ^ 32 ∧ m a = 0#8
  | a, c :: s => m a = c ∧ c ≠ 0#8 ∧ CString m (a + 1) s

variable {m : Mem} {a delim : Nat} {s d : List Byte}

theorem CString.lt (h : CString m a s) : a + s.length < 2 ^ 32 := by
  induction s generalizing a with
  | nil => exact h.1
  | cons c s ih =>
      have hlt := ih h.2.2
      rw [List.length_cons]
      omega

theorem CString.append {l : List Byte} (h : CString m a (l ++ s)) : CString m (a + l.length) s := by
  induction l generalizing a with
  | nil => exact h
  | cons c l ih =>
      have hrest := ih h.2.2
      rwa [List.length_cons, Nat.add_comm l.length 1, ← Nat.add_assoc]

theorem CString.congr {m' : Mem} (h : CString m a s) (hsame : ∀ x, a ≤ x → x ≤ a + s.length → m' x = m x) :
    CString m' a s := by
  induction s generalizing a with
  | nil => exact ⟨h.1, (hsame a le_rfl le_rfl).trans h.2⟩
  | cons c s ih =>
      rw [List.length_cons] at hsame
      exact ⟨(hsame a le_rfl (by omega)).trans h.1, h.2.1,
        ih h.2.2 fun x hlo hhi => hsame x (by omega) (by omega)⟩

theorem CString.cut {m' : Mem} {l : List Byte} (h : CString m a (l ++ s))
    (hsame : ∀ x, a ≤ x → x < a + l.length → m' x = m x) (hnul : m' (a + l.length) = 0#8) : CString m' a l := by
  induction l generalizing a with
  | nil =>
      have hlt := CString.lt h
      exact ⟨by omega, by simpa using hnul⟩
  | cons c l ih =>
      rw [List.length_cons] at hsame hnul
      refine ⟨(hsame a le_rfl (by omega)).trans h.1, h.2.1,
        ih h.2.2 (fun x hlo hhi => hsame x (by omega) (by omega)) ?_⟩
      rwa [Nat.add_assoc, Nat.add_comm 1]

def isIn (d : List Byte) (c : Byte) : Bool := decide (c ∈ d)

theorem strchrLoop_spec {c : Byte} (hc : c ≠ 0#8) (fuel : Nat) :
    ∀ {a d}, CString m a d → a ≠ 0 → d.length < fuel → ∃ r, strchrLoop m c fuel a = some r ∧ (r ≠ 0 ↔ c ∈ d) := by
  induction fuel with
  | zero => exact fun _ _ hlt => absurd hlt (Nat.not_lt_zero _)
  | succ fuel ih =>
      intro a d h ha hlt
      cases d with
      | nil => exact ⟨0, by rw [strchrLoop, if_pos h.2, if_neg hc], by simp⟩
      | cons b d =>
          obtain ⟨hb, hne, hrest⟩ := h
          have hend := hrest.lt
          rw [strchrLoop, hb, if_neg hne]
          by_cases heq : b = c
          · exact ⟨a, if_pos heq, iff_of_true ha (heq ▸ List.mem_cons_self)⟩
          · rw [if_neg heq, wrap_of_lt (by omega)]
            obtain ⟨r, hrun, hr⟩ := ih hrest (Nat.succ_ne_zero a) (by simpa using hlt)
            refine ⟨r, hrun, hr.trans ?_⟩
            rw [List.mem_cons, or_iff_right fun h => heq h.symm]

theorem strchr_spec {c : Byte} (hc : c ≠ 0#8) (hd : CString m delim d) (hdelim : delim ≠ 0) :
    ∃ r, strchr m delim c = some r ∧ decide (r ≠ 0) = isIn d c := by
  have hlt := hd.lt
  obtain ⟨r, hrun, hr⟩ := strchrLoop_spec hc stringFuel hd hdelim (by unfold stringFuel; omega)
  exact ⟨r, by rw [strchr, if_neg hdelim, hrun], decide_eq_decide.mpr hr⟩

theorem skipWhile_spec (hd : CString m delim d) (hdelim : delim ≠ 0) (isDelim : Bool) (fuel : Nat) :
    ∀ {a s}, CString m a s → s.length < fuel →
      skipWhile m delim isDelim fuel a = some (a + (s.takeWhile fun c => isIn d c == isDelim).length) := by
  induction fuel with
  | zero => exact fun _ hlt => absurd hlt (Nat.not_lt_zero _)
  | succ fuel ih =>
      intro a s h hlt
      cases s with
      | nil => rw [skipWhile, if_pos h.2, List.takeWhile_nil, List.length_nil, Nat.add_zero]
      | cons c s =>
          obtain ⟨hc, hne, hrest⟩ := h
          have hend := hrest.lt
          obtain ⟨r, hrun, hr⟩ := strchr_spec hne hd hdelim
          rw [skipWhile, hc, if_neg hne, hrun, Option.bind_eq_bind, Option.bind_some, hr, List.takeWhile_cons]
          by_cases hkind : isIn d c = isDelim
          · rw [if_pos hkind, if_pos (by simpa using hkind), wrap_of_lt (by omega), ih hrest (by simpa using hlt),
              List.length_cons]
            exact congrArg some (by omega)
          · rw [if_neg hkind, if_neg (by simpa using hkind), List.length_nil, Nat.add_zero]

/-- The static pointer holds the place, or is null and nothing is left. -/
def Resumes (st : StrtokState) (s : Nat) (c : Nat × List Byte) : Prop :=
  (st.last = 0 ∧ c.2 = []) ∨ (st.last = s + c.1 ∧ CString st.mem (s + c.1) c.2)

/-- The value returned for a token at an offset of the string, or for none. -/
def tokenPointer (s : Nat) (r : Option (Nat × List Byte)) : Nat := r.elim 0 fun t => s + t.1

theorem strtok_first {st : StrtokState} {str : Nat} (h : str ≠ 0) (p : Nat) :
    strtok st str p = strtok { st with last := str } 0 p := by
  simp only [strtok, if_pos h, ne_eq, not_true_eq_false, if_false]

theorem isIn_gap (d s : List Byte) : (s.takeWhile fun c => isIn d c == true) = gap (isIn d) s := by
  simp [gap]

theorem isIn_token (d s : List Byte) :
    ((s.dropWhile (isIn d)).takeWhile fun c => isIn d c == false) = token (isIn d) s := by
  simp [token]

theorem skipWhile_gap (hd : CString m delim d) (hdelim : delim ≠ 0) (h : CString m a s) :
    skipWhile m delim true stringFuel a = some (a + (gap (isIn d) s).length) ∧
      CString m (a + (gap (isIn d) s).length) (token (isIn d) s ++ rest (isIn d) s) := by
  have hlt := h.lt
  constructor
  · rw [skipWhile_spec hd hdelim true stringFuel h (by unfold stringFuel; omega), isIn_gap]
  · apply CString.append
    rwa [gap_append_token_append_rest]

theorem skipWhile_token (hd : CString m delim d) (hdelim : delim ≠ 0)
    (h : CString m a (token (isIn d) s ++ rest (isIn d) s)) :
    skipWhile m delim false stringFuel a = some (a + (token (isIn d) s).length) := by
  have hlt := h.lt
  have hall : token (isIn d) s ++ rest (isIn d) s = s.dropWhile (isIn d) := List.takeWhile_append_dropWhile
  rw [skipWhile_spec hd hdelim false stringFuel h (by unfold stringFuel; omega), hall, isIn_token]

theorem strtok_none (ha : a ≠ 0) (h : CString m a s) (hd : CString m delim d) (hdelim : delim ≠ 0)
    (htok : token (isIn d) s = []) :
    strtok ⟨m, a⟩ 0 delim = some (0, ⟨m, a + (gap (isIn d) s).length⟩) ∧
      CString m (a + (gap (isIn d) s).length) [] := by
  obtain ⟨hgap, hnul⟩ := skipWhile_gap hd hdelim h
  rw [htok, rest_eq_nil htok, List.append_nil] at hnul
  refine ⟨?_, hnul⟩
  simp only [strtok, ne_eq, not_true_eq_false, if_false]
  cases s with
  | nil => rw [if_pos (Or.inr h.2)]; rfl
  | cons c s =>
      rw [if_neg (not_or.mpr ⟨ha, h.1.symm ▸ h.2.1⟩), hgap, Option.bind_eq_bind, Option.bind_some, if_pos hnul.2]

theorem strtok_token (ha : a ≠ 0) (h : CString m a s) (hd : CString m delim d) (hdelim : delim ≠ 0)
    (htok : token (isIn d) s ≠ []) :
    let start := a + (gap (isIn d) s).length
    let stop := start + (token (isIn d) s).length
    strtok ⟨m, a⟩ 0 delim =
        (if m stop ≠ 0#8 then some (start, ⟨store8 m stop 0#8, wrap (stop + 1)⟩) else some (start, ⟨m, 0⟩)) ∧
      CString m start (token (isIn d) s ++ rest (isIn d) s) ∧ CString m stop (rest (isIn d) s) := by
  intro start stop
  obtain ⟨hgap, hbehind⟩ := skipWhile_gap hd hdelim h
  refine ⟨?_, hbehind, CString.append hbehind⟩
  have hfirst : m a ≠ 0#8 := by
    cases s with
    | nil => exact absurd rfl htok
    | cons c s => exact h.1.symm ▸ h.2.1
  have hstart : m start ≠ 0#8 := by
    obtain ⟨c, l, hcons⟩ := List.exists_cons_of_ne_nil htok
    rw [hcons] at hbehind
    exact hbehind.1.symm ▸ hbehind.2.1
  have hstop := skipWhile_token hd hdelim hbehind
  simp only [strtok, ne_eq, not_true_eq_false, if_false]
  rw [if_neg (not_or.mpr ⟨ha, hfirst⟩), hgap, Option.bind_eq_bind, Option.bind_some, if_neg hstart, hstop,
    Option.bind_some]

theorem strtok_last (ha : a ≠ 0) (h : CString m a s) (hd : CString m delim d) (hdelim : delim ≠ 0)
    (htok : token (isIn d) s ≠ []) (hrest : rest (isIn d) s = []) :
    strtok ⟨m, a⟩ 0 delim = some (a + (gap (isIn d) s).length, ⟨m, 0⟩) ∧
      CString m (a + (gap (isIn d) s).length) (token (isIn d) s) := by
  obtain ⟨hrun, hbehind, hstop⟩ := strtok_token ha h hd hdelim htok
  rw [hrest] at hstop
  rw [hrest, List.append_nil] at hbehind
  exact ⟨by rw [hrun, if_neg (not_not.mpr hstop.2)], hbehind⟩

theorem strtok_some (ha : a ≠ 0) (h : CString m a s) (hd : CString m delim d) (hdelim : delim ≠ 0)
    (htok : token (isIn d) s ≠ []) (hrest : rest (isIn d) s ≠ []) :
    let start := a + (gap (isIn d) s).length
    let stop := start + (token (isIn d) s).length
    strtok ⟨m, a⟩ 0 delim = some (start, ⟨store8 m stop 0#8, stop + 1⟩) ∧
      CString (store8 m stop 0#8) start (token (isIn d) s) ∧
      CString (store8 m stop 0#8) (stop + 1) (rest (isIn d) s).tail := by
  intro start stop
  obtain ⟨hrun, hbehind, hstop⟩ := strtok_token ha h hd hdelim htok
  obtain ⟨c, after, hcons⟩ := List.exists_cons_of_ne_nil hrest
  rw [hcons] at hstop
  have hend := hstop.2.2.lt
  refine ⟨?_, ?_, ?_⟩
  · rw [hrun, if_pos (hstop.1.symm ▸ hstop.2.1), wrap_of_lt (by omega)]
  · apply hbehind.cut
    · intro x _ hx
      rw [store8, if_neg (by omega)]
    · rw [store8, if_pos rfl]
  · rw [hcons]
    apply hstop.2.2.congr
    intro x hx _
    rw [store8, if_neg (by omega)]

/-- A call cuts one token, and no byte but the one behind it changes. -/
theorem strtok_spec {st : StrtokState} {s : Nat} {c : Nat × List Byte} (hs : s ≠ 0) (h : Resumes st s c)
    (hd : CString st.mem delim d) (hdelim : delim ≠ 0) :
    ∃ st', strtok st 0 delim = some (tokenPointer s (cut (isIn d) c).1, st') ∧ Resumes st' s (cut (isIn d) c).2 ∧
      (∀ t, (cut (isIn d) c).1 = some t → CString st'.mem (s + t.1) t.2) ∧
      ∀ a, (∀ t, (cut (isIn d) c).1 = some t → a ≠ s + t.1 + t.2.length) → st'.mem a = st.mem a := by
  obtain ⟨m, last⟩ := st
  obtain ⟨pos, text⟩ := c
  rcases h with ⟨hlast, htext⟩ | ⟨hlast, htext⟩
  · replace hlast : last = 0 := hlast
    replace htext : text = [] := htext
    subst hlast htext
    rw [cut_none rfl]
    exact ⟨⟨m, 0⟩, by simp [strtok, tokenPointer], Or.inl ⟨rfl, rfl⟩, by simp, fun a _ => rfl⟩
  · replace hlast : last = s + pos := hlast
    replace htext : CString m (s + pos) text := htext
    subst hlast
    have hne : s + pos ≠ 0 := by omega
    by_cases htok : token (isIn d) text = []
    · obtain ⟨hrun, hnul⟩ := strtok_none hne htext hd hdelim htok
      rw [cut_none htok]
      rw [Nat.add_assoc] at hrun hnul
      exact ⟨_, hrun, Or.inr ⟨rfl, hnul⟩, by simp, fun a _ => rfl⟩
    · rw [cut_some htok]
      by_cases hrest : rest (isIn d) text = []
      · obtain ⟨hrun, htoken⟩ := strtok_last hne htext hd hdelim htok hrest
        rw [Nat.add_assoc] at hrun htoken
        refine ⟨⟨m, 0⟩, hrun, Or.inl ⟨rfl, by rw [hrest]; rfl⟩, ?_, fun a _ => rfl⟩
        rintro t ⟨⟩
        exact htoken
      · obtain ⟨hrun, htoken, hnext⟩ := strtok_some hne htext hd hdelim htok hrest
        rw [Nat.add_assoc s] at hrun htoken hnext
        refine ⟨_, hrun, Or.inr ⟨by simp only; omega, ?_⟩, ?_, ?_⟩
        · convert hnext using 1
          simp only
          omega
        · rintro t ⟨⟩
          exact htoken
        · intro a hkept
          exact if_neg (hkept _ rfl)

/-- Each delimiter pointer is not null and holds its delimiters when it is passed. -/
def ReadsDelims : StrtokState → Nat → List (Nat × List Byte) → Prop
  | _, _, [] => True
  | st, str, (p, d) :: calls =>
      p ≠ 0 ∧ CString st.mem p d ∧ ∀ ret st', strtok st str p = some (ret, st') → ReadsDelims st' 0 calls

theorem readsDelims_first {str : Nat} (h : str ≠ 0) (st : StrtokState) (calls : List (Nat × List Byte)) :
    ReadsDelims st str calls ↔ ReadsDelims { st with last := str } 0 calls := by
  cases calls with
  | nil => exact Iff.rfl
  | cons call calls => simp only [ReadsDelims, strtok_first h]

def tokensOf (calls : List (Nat × List Byte)) (c : Nat × List Byte) : List (Option (Nat × List Byte)) :=
  cuts (calls.map fun call => isIn call.2) c

theorem strtokCalls_cons {st st' : StrtokState} {str p ret : Nat} (h : strtok st str p = some (ret, st'))
    (ps : List Nat) :
    strtokCalls st str (p :: ps) = (strtokCalls st' 0 ps).map fun r => (ret :: r.1, r.2) := by
  rw [strtokCalls, h, Option.bind_eq_bind, Option.bind_some, Option.map_eq_bind]
  rfl

theorem strtokCalls_resume {calls : List (Nat × List Byte)} {s : Nat} (hs : s ≠ 0) :
    ∀ {st c}, Resumes st s c → ReadsDelims st 0 calls →
      ∃ st', strtokCalls st 0 (calls.map Prod.fst) = some ((tokensOf calls c).map (tokenPointer s), st') ∧
        (∀ t, some t ∈ tokensOf calls c → CString st'.mem (s + t.1) t.2) ∧
        ∀ a, (∀ t, some t ∈ tokensOf calls c → a ≠ s + t.1 + t.2.length) → st'.mem a = st.mem a := by
  induction calls with
  | nil => exact fun {st c} _ _ => ⟨st, rfl, fun t ht => absurd ht List.not_mem_nil, fun a _ => rfl⟩
  | cons call calls ih =>
      intro st c h hreads
      obtain ⟨hp, hd, hnext⟩ := hreads
      obtain ⟨st', hrun, hres, htoken, hkept⟩ := strtok_spec hs h hd hp
      obtain ⟨st'', hruns, htokens, hkepts⟩ := ih hres (hnext _ _ hrun)
      have hall : tokensOf (call :: calls) c =
        (cut (isIn call.2) c).1 :: tokensOf calls (cut (isIn call.2) c).2 := rfl
      refine ⟨st'', ?_, ?_, ?_⟩
      · rw [List.map_cons, strtokCalls_cons hrun, hruns]
        rfl
      · intro t ht
        rw [hall, List.mem_cons] at ht
        rcases ht with hfirst | hmem
        · -- the later calls write behind this token
          apply (htoken t hfirst.symm).congr
          intro x _ hx
          apply hkepts
          intro t' ht'
          have hle := cut_lt hfirst.symm
          have hle' := le_of_mem_cuts ht'
          omega
        · exact htokens t hmem
      · intro a ha
        rw [hall] at ha
        exact (hkepts a fun t ht => ha t (List.mem_cons_of_mem _ ht)).trans
          (hkept a fun t ht => ha t (ht ▸ List.mem_cons_self))

theorem readsDelims_of_apart {calls : List (Nat × List Byte)} {s n : Nat} (hs : s ≠ 0) :
    ∀ {st c}, Resumes st s c → (∀ t, some t ∈ tokensOf calls c → t.1 + t.2.length ≤ n) →
      (∀ call ∈ calls, call.1 ≠ 0 ∧ CString st.mem call.1 call.2 ∧ (call.1 + call.2.length < s ∨ s + n < call.1)) →
      ReadsDelims st 0 calls := by
  induction calls with
  | nil => exact fun _ _ _ => trivial
  | cons call calls ih =>
      intro st c h hin hcalls
      obtain ⟨hp, hd, _⟩ := hcalls call List.mem_cons_self
      obtain ⟨st', hrun, hres, _, hkept⟩ := strtok_spec hs h hd hp
      refine ⟨hp, hd, fun ret st'' hrun' => ?_⟩
      cases hrun.symm.trans hrun'
      apply ih hres fun t ht => hin t (List.mem_cons_of_mem _ ht)
      intro call' hmem
      obtain ⟨hp', hd', hapart⟩ := hcalls call' (List.mem_cons_of_mem _ hmem)
      refine ⟨hp', hd'.congr fun x hlo hhi => hkept x fun t ht => ?_, hapart⟩
      have hle := hin t (ht ▸ List.mem_cons_self)
      omega

/-- The calls on a string: the tokens they return, the bytes they overwrite, and what they return
with the same delimiters each time. -/
theorem strtok_calls_spec {s last : Nat} {text : List Byte} {calls : List (Nat × List Byte)} (hs : s ≠ 0)
    (htext : CString m s text) (hreads : ReadsDelims ⟨m, last⟩ s calls) :
    (∃ st', strtokCalls ⟨m, last⟩ s (calls.map Prod.fst) = some ((tokensOf calls (0, text)).map (tokenPointer s), st') ∧
      (∀ t, some t ∈ tokensOf calls (0, text) → CString st'.mem (s + t.1) t.2) ∧
      ∀ a, (∀ t, some t ∈ tokensOf calls (0, text) → a ≠ s + t.1 + t.2.length) → st'.mem a = m a) ∧
    (∀ sep, (∀ call ∈ calls, isIn call.2 = sep) → (tokensOf calls (0, text)).map (Option.map Prod.snd) =
      (List.range calls.length).map fun i => (fields sep text)[i]?) ∧
    (tokensOf calls (0, text)).Pairwise fun r r' => r = none → r' = none := by
  refine ⟨?_, ?_, cuts_pairwise _ _⟩
  · cases calls with
    | nil => exact ⟨⟨m, last⟩, rfl, fun t ht => absurd ht List.not_mem_nil, fun a _ => rfl⟩
    | cons call calls =>
        have hres : Resumes ⟨m, s⟩ s (0, text) := Or.inr ⟨rfl, htext⟩
        have hsame : strtokCalls ⟨m, last⟩ s ((call :: calls).map Prod.fst) =
            strtokCalls ⟨m, s⟩ 0 ((call :: calls).map Prod.fst) := by
          rw [List.map_cons, strtokCalls, strtokCalls, strtok_first hs]
        rw [hsame]
        exact strtokCalls_resume hs hres ((readsDelims_first hs _ _).mp hreads)
  · intro sep hsep
    have hconst : (calls.map fun call => isIn call.2) = List.replicate calls.length sep := by
      rw [List.map_congr_left hsep, List.map_const']
    rw [tokensOf, hconst, cuts_replicate]

/-- A line with three parts, and behind it two delimiter strings; the third is the empty one. -/
def lineMem : Mem := fun a =>
  match a with
  | 1 => 97#8 | 2 => 32#8 | 3 => 98#8 | 4 => 44#8 | 5 => 99#8 | 16 => 32#8 | 32 => 44#8 | _ => 0#8

def lineText : List Byte := [97#8, 32#8, 98#8, 44#8, 99#8]

def lineCalls : List (Nat × List Byte) := [(16, [32#8]), (32, [44#8]), (17, [])]

theorem strtok_calls_line :
    tokensOf lineCalls (0, lineText) = [some (0, [97#8]), some (2, [98#8]), some (4, [99#8])] ∧
      ∃ st', strtokCalls ⟨lineMem, 0⟩ 1 [16, 32, 17] = some ([1, 3, 5], st') ∧ st'.mem 2 = 0#8 ∧
        st'.mem 16 = 32#8 := by
  have htokens : tokensOf lineCalls (0, lineText) =
    [some (0, [97#8]), some (2, [98#8]), some (4, [99#8])] := by decide
  have htext : CString lineMem 1 lineText := by simp [CString, lineMem, lineText]
  have hres : Resumes ⟨lineMem, 1⟩ 1 (0, lineText) := Or.inr ⟨rfl, htext⟩
  have hreads : ReadsDelims ⟨lineMem, 0⟩ 1 lineCalls := by
    rw [readsDelims_first one_ne_zero]
    apply readsDelims_of_apart one_ne_zero hres fun t ht => add_length_le_of_mem_cuts ht
    simp [CString, lineMem, lineCalls, lineText]
  obtain ⟨st', hrun, htoks, hkept⟩ := (strtok_calls_spec one_ne_zero htext hreads).1
  rw [htokens] at hrun htoks hkept
  exact ⟨htokens, st', hrun, (htoks (0, [97#8]) (by simp)).2.2.2, (hkept 16 (by simp)).trans rfl⟩

end Frostix.Libc
