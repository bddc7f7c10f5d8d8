import Frostix.Tty.Parser

/-!
What a control sequence means. Between the escape and the letter the parser collects
closed parameters and the digits of an open one; whatever its buffers held before is
out of reach, and only the letter leads to a call of `handle_ansi_command`. -/
namespace Frostix.Tty

open Machine32 Libc Transition

def addDigit (value : Nat) (c : Byte) : Nat := value * 10 + (c.toNat - 48)

def decimal (digits : List Byte) : Nat := digits.foldl addDigit 0

/-- The parameters of a sequence; an empty last one does not count. -/
def decoded : List (List Byte) → List Int
  | [] => []
  | [p] => if p = [] then [] else [(decimal p : Int)]
  | p :: q :: rest => (decimal p : Int) :: decoded (q :: rest)

/-- `ESC [`, the parameters separated by `;`, and a last byte. -/
def controlSequence (params : List (List Byte)) (last : Byte) : List Byte :=
  27#8 :: ascii '[' :: ([ascii ';'].intercalate params ++ [last])

/-- A parameter as it is written: nothing, or a numeral that fits an `int` and the buffer. -/
def IsParam (p : List Byte) : Prop := (∀ c ∈ p, isDigit c = true) ∧ p.length ≤ 63 ∧ decimal p < 2 ^ 31

def AnsiContext.params (ctx : AnsiContext) : List Int := ctx.ansiParams.toList.take ctx.ansiParamCount

def AnsiContext.digits (ctx : AnsiContext) : List Byte := ctx.ansiBuf.toList.take ctx.ansiBufIdx

/-- The call of `handle_ansi_command` that a byte leads to, with the parameters it finds. -/
def dispatch (con : Console) (c : Byte) : Option (Byte × List Int) :=
  if con.term.ansiCtx.state = .csi ∧ isAlpha c = true then
    match endLastParam con.term.ansiCtx with
    | .ok ctx => some (c, ctx.params)
    | .error _ => none
  else none

/-- The calls of `handle_ansi_command` along a sequence of bytes. -/
def dispatches (con : Console) : List Byte → List (Byte × List Int)
  | [] => []
  | c :: rest =>
      (dispatch con c).toList ++
        match ansiProcessChar con c with
        | .ok con' => dispatches con' rest
        | .error _ => []

theorem ansiProcessChar_dispatched {con : Console} {c cmd : Byte} {params : List Int}
    (h : dispatch con c = some (cmd, params)) :
    ∃ ctx : AnsiContext, ctx.params = params ∧
      ansiProcessChar con c = .ok ((handleAnsiCommand (con.setCtx ctx) cmd).setCtx
        { (handleAnsiCommand (con.setCtx ctx) cmd).term.ansiCtx with state := .normal }) := by
  unfold dispatch at h
  split_ifs at h with hcsi
  obtain ⟨hstate, halpha⟩ := hcsi
  obtain ⟨hdigit, hsemi, hquery⟩ := isAlpha_ne halpha
  cases hend : endLastParam con.term.ansiCtx with
  | error e =>
      rw [hend] at h
      cases h
  | ok ctx =>
      rw [hend] at h
      cases h
      refine ⟨ctx, rfl, ?_⟩
      simp only [ansiProcessChar, hstate]
      exact processCsi_letter hdigit hsemi hquery halpha hend

theorem isDigit_spec {c : Byte} (h : isDigit c = true) :
    48 ≤ c.toNat ∧ isSpace c = false ∧ c ≠ ascii '+' ∧ c ≠ ascii '-' ∧ c ≠ ascii ';' ∧ isAlpha c = false := by
  revert h
  revert c
  decide

theorem le_foldl_addDigit (digits : List Byte) (n : Nat) : n ≤ digits.foldl addDigit n := by
  induction digits generalizing n with
  | nil => exact le_rfl
  | cons c rest ih =>
      have hstep : n ≤ addDigit n c := by
        unfold addDigit
        omega
      exact le_trans hstep (ih _)

theorem atoiDigits_spec {digits : List Byte} (hd : ∀ c ∈ digits, isDigit c = true) (stale : List Byte) (n : Nat)
    (hv : digits.foldl addDigit n < 2 ^ 31) :
    atoiDigits n (digits ++ 0#8 :: stale) = (digits.foldl addDigit n : Nat) := by
  induction digits generalizing n with
  | nil =>
      rw [List.nil_append, atoiDigits, if_neg (by decide)]
      rfl
  | cons c rest ih =>
      have hc := hd c List.mem_cons_self
      have hlow := (isDigit_spec hc).1
      rw [List.foldl_cons] at hv ⊢
      have hfit : addDigit n c < 2 ^ 31 := lt_of_le_of_lt (le_foldl_addDigit rest _) hv
      have hnext : sint ((n : Int) * 10 + ((c.toNat : Int) - 48)) = (addDigit n c : Nat) := by
        unfold addDigit at hfit ⊢
        rw [sint_of_range (by omega) (by omega)]
        omega
      rw [List.cons_append, atoiDigits, if_pos hc, hnext]
      exact ih (fun b hb => hd b (List.mem_cons_of_mem _ hb)) _ hv

/-- `atoi` reads a numeral up to the NUL behind it. -/
theorem atoi_digits {digits : List Byte} (hd : ∀ c ∈ digits, isDigit c = true) (hne : digits ≠ [])
    (hv : decimal digits < 2 ^ 31) (stale : List Byte) : atoi (digits ++ 0#8 :: stale) = decimal digits := by
  obtain ⟨c, rest, rfl⟩ := List.exists_cons_of_ne_nil hne
  obtain ⟨-, hspace, hplus, hminus, -⟩ := isDigit_spec (hd c List.mem_cons_self)
  have hdrop : ((c :: rest) ++ 0#8 :: stale).dropWhile isSpace = (c :: rest) ++ 0#8 :: stale := by
    rw [List.cons_append, List.dropWhile_cons, hspace]
    rfl
  unfold atoi
  rw [hdrop]
  simp only [List.cons_append, if_neg hplus, if_neg hminus]
  exact atoiDigits_spec hd stale 0 hv

/-- In a control sequence with some closed parameters and some digits of the next one. -/
structure Collected (ctx : AnsiContext) (closed : List Int) (digits : List Byte) : Prop where
  state : ctx.state = .csi
  params : ctx.params = closed
  count : ctx.ansiParamCount = closed.length
  fit : closed.length ≤ 16
  buffer : ctx.digits = digits
  idx : ctx.ansiBufIdx = digits.length
  short : digits.length ≤ 63

theorem take_set_succ {α : Type} {l : List α} {i : Nat} (h : i < l.length) (x : α) :
    (l.set i x).take (i + 1) = l.take i ++ [x] := by
  rw [List.set_eq_take_append_cons_drop, if_pos h, List.take_append, List.take_of_length_le]
  · simp [List.length_take, Nat.min_eq_left h.le]
  · simp

section Steps

variable {con : Console} {closed : List Int} {digits : List Byte} {c : Byte}

theorem ansiProcessChar_csi (h : con.term.ansiCtx.state = .csi) : ansiProcessChar con c = processCsi con c := by
  simp only [ansiProcessChar, h]

theorem Collected.digit (h : Collected con.term.ansiCtx closed digits) (hc : isDigit c = true)
    (hroom : digits.length < 63) :
    ∃ ctx, ansiProcessChar con c = .ok (con.setCtx ctx) ∧ Collected ctx closed (digits ++ [c]) := by
  have hidx : con.term.ansiCtx.ansiBufIdx < 64 := by
    rw [h.idx]
    omega
  refine ⟨{ con.term.ansiCtx with
      ansiBuf := con.term.ansiCtx.ansiBuf.set con.term.ansiCtx.ansiBufIdx c
      ansiBufIdx := con.term.ansiCtx.ansiBufIdx + 1 }, ?_, ⟨h.state, h.params, h.count, h.fit, ?_, ?_, ?_⟩⟩
  · rw [ansiProcessChar_csi h.state]
    simp only [processCsi, hc, if_true]
    rw [if_pos (by rw [h.idx]; omega), writeBuf, dif_pos hidx]
    rfl
  · simp only [AnsiContext.digits, Vector.toList_set]
    rw [take_set_succ (by rw [Vector.length_toList]; exact hidx), ← h.buffer]
    rfl
  · simp [h.idx]
  · rw [List.length_append, List.length_singleton]
    exact hroom

theorem Collected.ended {ctx : AnsiContext} (h : Collected ctx closed digits) (hd : IsParam digits) :
    ∃ ctx₁, writeBuf ctx ctx.ansiBufIdx 0#8 = .ok ctx₁ ∧ Collected ctx₁ closed digits ∧
      (digits ≠ [] → atoi ctx₁.ansiBuf.toList = decimal digits) := by
  have hidx : ctx.ansiBufIdx < 64 := by
    have hshort := h.short
    rw [h.idx]
    omega
  have hlen : ctx.ansiBufIdx < ctx.ansiBuf.toList.length := by
    rw [Vector.length_toList]
    exact hidx
  have hbuf : (ctx.ansiBuf.set ctx.ansiBufIdx 0#8).toList =
      digits ++ 0#8 :: ctx.ansiBuf.toList.drop (ctx.ansiBufIdx + 1) := by
    rw [Vector.toList_set, List.set_eq_take_append_cons_drop, if_pos hlen]
    congr 1
    exact h.buffer
  refine ⟨_, dif_pos hidx, ⟨h.state, h.params, h.count, h.fit, ?_, h.idx, h.short⟩, fun hne => ?_⟩
  · rw [AnsiContext.digits, hbuf, h.idx]
    exact List.take_left
  · dsimp only
    rw [hbuf]
    exact atoi_digits hd.1 hne hd.2.2 _

theorem Collected.push {ctx : AnsiContext} (h : Collected ctx closed digits) (hroom : closed.length < 16)
    (p : Int) :
    ∃ ctx', pushParam ctx p = .ok ctx' ∧ Collected ctx' (closed ++ [p]) digits := by
  have hcount : ctx.ansiParamCount < 16 := h.count ▸ hroom
  refine ⟨_, dif_pos hcount, ⟨h.state, ?_, ?_, ?_, h.buffer, h.idx, h.short⟩⟩
  · simp only [AnsiContext.params, Vector.toList_set]
    rw [take_set_succ (by rw [Vector.length_toList]; exact hcount), ← h.params]
    rfl
  · simp [h.count]
  · rw [List.length_append, List.length_singleton]
    exact hroom

/-- A `;` closes the open parameter, an empty one as 0. -/
theorem Collected.semi (h : Collected con.term.ansiCtx closed digits) (hd : IsParam digits)
    (hroom : closed.length < 16) :
    ∃ ctx, ansiProcessChar con (ascii ';') = .ok (con.setCtx ctx) ∧
      Collected ctx (closed ++ [(decimal digits : Int)]) [] := by
  obtain ⟨ctx₁, hwrite, h₁, hval⟩ := h.ended hd
  have hp : (if 0 < ctx₁.ansiBufIdx then atoi ctx₁.ansiBuf.toList else 0) = (decimal digits : Int) := by
    rw [h₁.idx]
    by_cases hne : digits = []
    · rw [hne]
      rfl
    · rw [if_pos (List.length_pos_iff.mpr hne), hval hne]
  obtain ⟨ctx₂, hpush, h₂⟩ := h₁.push hroom (decimal digits : Int)
  have hend : endParam con.term.ansiCtx = .ok { ctx₂ with ansiBufIdx := 0 } := by
    unfold endParam
    rw [hwrite]
    simp only [bind, Except.bind]
    rw [hp, hpush]
    rfl
  refine ⟨{ ctx₂ with ansiBufIdx := 0 }, ?_,
    ⟨h₂.state, h₂.params, h₂.count, h₂.fit, List.take_zero, rfl, by simp⟩⟩
  · rw [ansiProcessChar_csi h.state, processCsi, if_neg (by decide), if_pos rfl, hend]
    rfl

theorem Collected.letter (h : Collected con.term.ansiCtx closed digits) (hd : IsParam digits)
    (hroom : closed.length < 16) (hc : isAlpha c = true) :
    dispatch con c = some (c, closed ++ decoded [digits]) := by
  obtain ⟨ctx₁, hwrite, h₁, hval⟩ := h.ended hd
  have hend : ∃ ctx, endLastParam con.term.ansiCtx = .ok ctx ∧ ctx.params = closed ++ decoded [digits] := by
    unfold endLastParam
    rw [hwrite]
    simp only [bind, Except.bind]
    rw [h₁.idx, decoded]
    by_cases hne : digits = []
    · rw [if_neg (by simp [hne]), if_pos hne, List.append_nil]
      exact ⟨ctx₁, rfl, h₁.params⟩
    · rw [if_pos (List.length_pos_iff.mpr hne), if_neg hne, hval hne]
      obtain ⟨ctx₂, hpush, h₂⟩ := h₁.push hroom (decimal digits : Int)
      exact ⟨ctx₂, hpush, h₂.params⟩
  obtain ⟨ctx, hrun, hparams⟩ := hend
  rw [dispatch, if_pos ⟨h.state, hc⟩, hrun]
  simp only [hparams]

end Steps

/-- The bytes are read without a call of the handler; only the context changes. -/
def Quietly (con : Console) (bytes : List Byte) (ctx : AnsiContext) : Prop :=
  bytes.foldlM ansiProcessChar con = .ok (con.setCtx ctx) ∧ dispatches con bytes = []

section Runs

variable {con : Console} {ctx ctx' : AnsiContext}

theorem Quietly.nil : Quietly con [] con.term.ansiCtx := ⟨rfl, rfl⟩

theorem Quietly.cons {c : Byte} {rest : List Byte} (hc : ansiProcessChar con c = .ok (con.setCtx ctx))
    (hd : dispatch con c = none) (h : Quietly (con.setCtx ctx) rest ctx') : Quietly con (c :: rest) ctx' := by
  refine ⟨?_, ?_⟩
  · rw [List.foldlM_cons, hc]
    exact h.1
  · rw [dispatches, hd, hc]
    exact h.2

theorem Quietly.single {c : Byte} (hc : ansiProcessChar con c = .ok (con.setCtx ctx))
    (hd : dispatch con c = none) :
    Quietly con [c] ctx := .cons hc hd .nil

theorem dispatches_append {con' : Console} {a : List Byte} (b : List Byte)
    (h : a.foldlM ansiProcessChar con = .ok con') :
    dispatches con (a ++ b) = dispatches con a ++ dispatches con' b := by
  induction a generalizing con with
  | nil =>
      cases h
      rfl
  | cons c rest ih =>
      rw [List.foldlM_cons] at h
      cases hc : ansiProcessChar con c with
      | error e =>
          rw [hc] at h
          cases h
      | ok con₁ =>
          rw [hc] at h
          rw [List.cons_append, dispatches, dispatches, hc]
          simp only [ih h, List.append_assoc]

theorem Quietly.append {a b : List Byte} (ha : Quietly con a ctx) (hb : Quietly (con.setCtx ctx) b ctx') :
    Quietly con (a ++ b) ctx' := by
  refine ⟨?_, ?_⟩
  · rw [List.foldlM_append, ha.1]
    exact hb.1
  · rw [dispatches_append b ha.1, ha.2, hb.2]
    rfl

theorem dispatch_eq_none {c : Byte} (h : con.term.ansiCtx.state ≠ .csi ∨ isAlpha c = false) :
    dispatch con c = none := by
  refine if_neg ?_
  rintro ⟨hstate, hc⟩
  rcases h with h | h
  · exact h hstate
  · rw [h] at hc
    cases hc

/-- `ESC [` forgets the parameters of earlier sequences. -/
theorem introducer_collects (h : con.term.ansiCtx.state = .normal) :
    ∃ ctx, Quietly con [27#8, ascii '['] ctx ∧ Collected ctx [] [] := by
  have hesc : ansiProcessChar con 27#8 = .ok (con.setCtx { con.term.ansiCtx with
      state := .esc
      ansiBufIdx := 0
      ansiParamCount := 0
      ansiPrivate := 0 }) := by
    simp only [ansiProcessChar, h]
    rfl
  refine ⟨_, .cons hesc (dispatch_eq_none (Or.inl (by simp [h]))) (.single rfl (dispatch_eq_none (Or.inl ?_))),
    ⟨rfl, List.take_zero, rfl, Nat.zero_le _, List.take_zero, rfl, Nat.zero_le _⟩⟩
  intro hstate
  cases hstate

theorem Collected.run_digits {closed : List Int} {digits : List Byte} (more : List Byte)
    (h : Collected con.term.ansiCtx closed digits) (hm : ∀ c ∈ more, isDigit c = true)
    (hroom : digits.length + more.length ≤ 63) :
    ∃ ctx, Quietly con more ctx ∧ Collected ctx closed (digits ++ more) := by
  induction more generalizing con digits with
  | nil => exact ⟨_, .nil, by rwa [List.append_nil]⟩
  | cons c rest ih =>
      rw [List.length_cons] at hroom
      have hc := hm c List.mem_cons_self
      obtain ⟨ctx₁, hstep, h₁⟩ := h.digit hc (by omega)
      obtain ⟨ctx₂, hrest, h₂⟩ := @ih (con.setCtx ctx₁) _ h₁ (fun b hb => hm b (List.mem_cons_of_mem _ hb))
        (by rw [List.length_append, List.length_singleton]; omega)
      refine ⟨ctx₂, .cons hstep (dispatch_eq_none (Or.inr (isDigit_spec hc).2.2.2.2.2)) hrest, ?_⟩
      rwa [List.append_assoc] at h₂

theorem Collected.run_params {closed : List Int} (params : List (List Byte))
    (h : Collected con.term.ansiCtx closed []) (hp : ∀ p ∈ params, IsParam p) (hroom : closed.length < 16)
    (hlen : closed.length + params.length ≤ 16) :
    ∃ ctx closed' digits, Quietly con ([ascii ';'].intercalate params) ctx ∧ Collected ctx closed' digits ∧
      IsParam digits ∧ closed'.length < 16 ∧ closed' ++ decoded [digits] = closed ++ decoded params := by
  -- on the parameters; the closed ones and those still to come are at most sixteen
  induction params generalizing con closed with
  | nil => exact ⟨_, closed, [], .nil, h, ⟨nofun, Nat.zero_le _, by decide⟩, hroom, rfl⟩
  | cons p rest ih =>
      have hpar := hp p List.mem_cons_self
      obtain ⟨ctx₁, hrun₁, h₁⟩ := h.run_digits p hpar.1 (by simpa using hpar.2.1)
      rw [List.nil_append] at h₁
      cases rest with
      | nil =>
          rw [List.intercalate_singleton]
          exact ⟨ctx₁, closed, p, hrun₁, h₁, hpar, hroom, rfl⟩
      | cons q rest =>
          rw [List.length_cons, List.length_cons] at hlen
          obtain ⟨ctx₂, hsemi, h₂⟩ := @Collected.semi (con.setCtx ctx₁) _ _ h₁ hpar hroom
          obtain ⟨ctx₃, closed', digits, hrun₃, h₃, hdig, hroom', hparams⟩ := @ih (con.setCtx ctx₂) _ h₂
            (fun b hb => hp b (List.mem_cons_of_mem _ hb)) (by simp; omega) (by simp; omega)
          have hquiet : dispatch (con.setCtx ctx₁) (ascii ';') = none := dispatch_eq_none (Or.inr (by decide))
          refine ⟨ctx₃, closed', digits, ?_, h₃, hdig, hroom', ?_⟩
          · rw [List.intercalate_cons_cons]
            exact (hrun₁.append (.single hsemi hquiet)).append hrun₃
          · rw [hparams, decoded, List.append_assoc, List.singleton_append]

/-- Between the bracket and a byte that ends it, a sequence with at most sixteen `;` does
nothing but change the context. -/
theorem run_body {closed : Nat} {digits : Bool} (body : List Byte)
    (hs : Tracks con.term.ansiCtx (.csi closed digits)) (hb : con.term.ansiCtx.Bounded)
    (hbody : ∀ c ∈ body, isDigit c = true ∨ c = ascii ';' ∨ c = ascii '?')
    (hroom : closed + body.count (ascii ';') ≤ 16) :
    ∃ ctx closed' digits', Quietly con body ctx ∧ Tracks ctx (.csi closed' digits') ∧ ctx.Bounded := by
  -- on the body; the closed parameters and the `;` still to come are at most sixteen
  induction body generalizing con closed digits with
  | nil => exact ⟨_, closed, digits, .nil, hs, hb⟩
  | cons c rest ih =>
      have hc := hbody c List.mem_cons_self
      have halpha : isAlpha c = false := by
        rcases hc with hc | rfl | rfl
        · exact (isDigit_spec hc).2.2.2.2.2
        · decide
        · decide
      have hfull : ¬ (Scan.csi closed digits).Overfull c := by
        rintro ⟨hle, hsemi | ⟨hletter, -⟩⟩
        · rw [hsemi, List.count_cons_self] at hroom
          omega
        · rw [halpha] at hletter
          cases hletter
      obtain ⟨con', hrun, hs', hb', hquiet⟩ := ansiProcessChar_tracks hs hb hfull
      obtain ⟨ctx₁, rfl, -⟩ := hquiet (by simp [halpha])
      have hnext : ∃ closed₁ digits₁, (Scan.csi closed digits).next c = .csi closed₁ digits₁ ∧
          closed₁ + rest.count (ascii ';') ≤ 16 := by
        rcases hc with hc | rfl | rfl
        · rw [List.count_cons_of_ne (isDigit_spec hc).2.2.2.2.1] at hroom
          exact ⟨closed, true, by simp [Scan.next, hc], hroom⟩
        · rw [List.count_cons_self] at hroom
          exact ⟨closed + 1, false, rfl, by omega⟩
        · rw [List.count_cons_of_ne (by decide)] at hroom
          exact ⟨closed, digits, rfl, hroom⟩
      obtain ⟨closed₁, digits₁, hscan, hroom₁⟩ := hnext
      rw [hscan] at hs'
      obtain ⟨ctx₂, closed₂, digits₂, hrun₂, hs₂, hb₂⟩ := @ih (con.setCtx ctx₁) _ _ hs' hb'
        (fun b hb => hbody b (List.mem_cons_of_mem _ hb)) hroom₁
      exact ⟨ctx₂, closed₂, digits₂, .cons hrun (dispatch_eq_none (Or.inr halpha)) hrun₂, hs₂, hb₂⟩

theorem intro_append (rest : List Byte) : 27#8 :: ascii '[' :: rest = [27#8, ascii '['] ++ rest := rfl

theorem sequence_dispatched (hstate : con.term.ansiCtx.state = .normal) {params : List (List Byte)} {c : Byte}
    (hlen : params.length ≤ 16) (hp : ∀ p ∈ params, IsParam p) (hc : isAlpha c = true) :
    dispatches con (controlSequence params c) = [(c, decoded params)] ∧
      ∃ ctx : AnsiContext, ctx.params = decoded params ∧
        (controlSequence params c).foldlM ansiProcessChar con =
          .ok ((handleAnsiCommand (con.setCtx ctx) c).setCtx
            { (handleAnsiCommand (con.setCtx ctx) c).term.ansiCtx with state := .normal }) := by
  obtain ⟨ctx₁, hintro, h₁⟩ := introducer_collects hstate
  obtain ⟨ctx₂, closed, digits, hrun, h₂, hdig, hroom, hparams⟩ :=
    @Collected.run_params (con.setCtx ctx₁) _ params h₁ hp (by decide) (by simpa using hlen)
  rw [List.nil_append] at hparams
  have hcall := @Collected.letter (con.setCtx ctx₂) _ _ _ h₂ hdig hroom hc
  rw [hparams] at hcall
  obtain ⟨ctx, hctx, hlast⟩ := ansiProcessChar_dispatched hcall
  have hquiet := hintro.append hrun
  have hseq : controlSequence params c = [27#8, ascii '['] ++ [ascii ';'].intercalate params ++ [c] := by
    rw [List.append_assoc]
    rfl
  refine ⟨?_, ctx, hctx, ?_⟩
  · rw [hseq, dispatches_append [c] hquiet.1, hquiet.2, List.nil_append]
    rw [dispatches, hcall, hlast]
    rfl
  · rw [hseq, List.foldlM_append, hquiet.1]
    simp only [bind, Except.bind, List.foldlM_cons, List.foldlM_nil]
    rw [hlast]
    rfl

theorem sequence_ignored (hstate : con.term.ansiCtx.state = .normal) {body : List Byte} {last : Byte}
    (hbody : ∀ c ∈ body, isDigit c = true ∨ c = ascii ';' ∨ c = ascii '?') (hroom : body.count (ascii ';') ≤ 16)
    (hlast : ¬ (isDigit last = true ∨ last = ascii ';' ∨ last = ascii '?')) (halpha : isAlpha last = false) :
    ∃ ctx, Quietly con (27#8 :: ascii '[' :: (body ++ [last])) ctx ∧ ctx.state = .normal := by
  obtain ⟨ctx₁, hintro, h₁⟩ := introducer_collects hstate
  have hs : Tracks (con.setCtx ctx₁).term.ansiCtx (.csi 0 false) :=
    ⟨h₁.state, h₁.count, iff_of_false nofun
      (by rw [show (con.setCtx ctx₁).term.ansiCtx = ctx₁ from rfl, h₁.idx]; decide)⟩
  have hb : (con.setCtx ctx₁).term.ansiCtx.Bounded := by
    refine ⟨le_of_eq_of_le h₁.idx (Nat.zero_le _), le_of_eq_of_le h₁.count (Nat.zero_le _)⟩
  obtain ⟨ctx₂, closed, digits, hrun, hs₂, hb₂⟩ := run_body body hs hb hbody (by rwa [Nat.zero_add])
  have hfull : ¬ (Scan.csi closed digits).Overfull last := by
    rintro ⟨-, hsemi | ⟨hletter, -⟩⟩
    · exact hlast (Or.inr (Or.inl hsemi))
    · rw [halpha] at hletter
      cases hletter
  obtain ⟨con', hend, hs₃, -, hquiet⟩ := @ansiProcessChar_tracks (con.setCtx ctx₂) _ last hs₂ hb₂ hfull
  obtain ⟨ctx₃, rfl, -⟩ := hquiet (by simp [halpha])
  have htext : (Scan.csi closed digits).next last = .text := by
    obtain ⟨hdigit, hsemi, hquery⟩ := not_or.mp hlast |>.imp_right not_or.mp
    rw [Scan.next, if_neg hdigit, if_neg hsemi, if_neg hquery]
  rw [htext] at hs₃
  refine ⟨ctx₃, ?_, hs₃⟩
  rw [intro_append]
  exact hintro.append (hrun.append (.single hend (dispatch_eq_none (Or.inr halpha))))

end Runs

/-- Whatever was read before: a letter calls the handler exactly once, on the decoded
parameters, and any other byte that ends a sequence drops it. -/
theorem ansi_decoder {con : Console} (hstate : con.term.ansiCtx.state = .normal) :
    (∀ (params : List (List Byte)) (c : Byte), params.length ≤ 16 → (∀ p ∈ params, IsParam p) →
      isAlpha c = true →
      dispatches con (controlSequence params c) = [(c, decoded params)] ∧
        ∃ con' ctx, (controlSequence params c).foldlM ansiProcessChar con = .ok con' ∧
          ctx.params = decoded params ∧
          con' = (handleAnsiCommand (con.setCtx ctx) c).setCtx
            { (handleAnsiCommand (con.setCtx ctx) c).term.ansiCtx with state := .normal } ∧
          con'.term.ansiCtx.state = .normal) ∧
    (∀ (body : List Byte) (last : Byte), (∀ c ∈ body, isDigit c = true ∨ c = ascii ';' ∨ c = ascii '?') →
      body.count (ascii ';') ≤ 16 → ¬ (isDigit last = true ∨ last = ascii ';' ∨ last = ascii '?') →
      isAlpha last = false →
      dispatches con (27#8 :: ascii '[' :: (body ++ [last])) = [] ∧
        ∃ con' ctx, (27#8 :: ascii '[' :: (body ++ [last])).foldlM ansiProcessChar con = .ok con' ∧
          con' = con.setCtx ctx ∧ con'.term.ansiCtx.state = .normal) := by
  constructor
  · intro params c hlen hp hc
    obtain ⟨hcalls, ctx, hctx, hrun⟩ := sequence_dispatched hstate hlen hp hc
    exact ⟨hcalls, _, ctx, hrun, hctx, rfl, rfl⟩
  · intro body last hbody hroom hlast halpha
    obtain ⟨ctx, hquiet, hnormal⟩ := sequence_ignored hstate hbody hroom hlast halpha
    exact ⟨hquiet.2, _, ctx, hquiet.1, rfl, hnormal⟩

theorem ansi_decoder_demo :
    dispatches demoConsole (controlSequence [[ascii '7'], [], [ascii '4', ascii '2']] (ascii 'H')) =
        [(ascii 'H', [7, 0, 42])] ∧
      dispatches demoConsole (27#8 :: ascii '[' :: ([ascii '?', ascii '2', ascii ';'] ++ [ascii ' '])) = [] :=
  ⟨((ansi_decoder rfl).1 _ _ (by decide) (by unfold IsParam; decide) (by decide)).1,
    ((ansi_decoder rfl).2 _ _ (by decide) (by decide) (by decide) (by decide)).1⟩

end Frostix.Tty
