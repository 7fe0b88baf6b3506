import HakunaMatata.CmdUtils.Model

/-!
# The command line parser ends and stays in its copy

The copy always ends with its NUL, and no scan passes it. The only pointers that move back are those
of an option that is followed by arbitrary arguments, by at most two characters; an option starts
behind the command and the character that follows it, so that they stay in the copy
(`parseOption_safe`). `Ready` is the invariant of the loop. Every iteration after the one for the
command records an option or is the last one, and the 64th option is refused.
-/

namespace HakunaMatata.CmdUtils

open Base

section Option

variable {buf : List UInt8} {last start stop p : Nat}

/-- The pointer is null or before the end of the copy. -/
def Pointer.Before (last : Nat) : Pointer → Prop
  | .null => True
  | .addr p => p < last

/-- The end of a quoted text is before the end of the copy. -/
def Quoted.Before (last : Nat) : Quoted → Prop
  | .absent => True
  | .unclosed => True
  | .closed p => p < last

theorem closeQuotes_safe (h : Terminated buf last) (hp : p ≤ last) :
    ∃ quoted, closeQuotes buf p = .ok quoted ∧ quoted.Before last := by
  obtain ⟨found, hfound, hle, _⟩ := h.scan (show inQuotes 0 = false by decide) hp
  obtain ⟨c, hload, hget⟩ := h.load hle
  refine ⟨_, by rw [closeQuotes, hfound, ok_bind, hload, ok_bind]; rfl, ?_⟩
  by_cases hc : c = nul
  · rw [if_pos hc]
    exact trivial
  · rw [if_neg hc]
    exact h.lt_last hle hget hc

theorem detectQuoted_safe (h : Terminated buf last) (hstop : stop < last) (fuel : Nat)
    (hfuel : p + fuel = stop + 1) (hpos : 0 < fuel) :
    ∃ quoted, detectQuoted buf stop fuel p = .ok quoted ∧ quoted.Before last := by
  induction fuel generalizing p with
  | zero => exact absurd hpos (Nat.lt_irrefl 0)
  | succ fuel ih =>
    rw [detectQuoted]
    by_cases hend : p = stop
    · exact ⟨.absent, if_pos hend, trivial⟩
    · rw [if_neg hend]
      obtain ⟨c, hload, _⟩ := h.load (show p ≤ last by omega)
      rw [hload, ok_bind]
      by_cases hc : c = equals
      · obtain ⟨c', hload', _⟩ := h.load (show p + 1 ≤ last by omega)
        rw [if_pos hc, hload', ok_bind]
        by_cases hc' : c' = quote
        · rw [if_pos hc']
          exact closeQuotes_safe h (by omega)
        · exact ⟨.absent, if_neg hc', trivial⟩
      · rw [if_neg hc]
        exact ih (by omega) (by omega)

theorem stepBack_of_pos (hp : 0 < p) : stepBack p = .ok (p - 1) :=
  if_neg (by omega)

theorem followOption_safe (h : Terminated buf last) (hstart : 2 ≤ stop) (hstop : stop < last)
    (optionType : Int8) :
    ∃ pointer, followOption buf optionType stop = .ok pointer ∧ pointer.Before last := by
  unfold followOption
  by_cases hnull : optionType = otNull
  · exact ⟨.null, if_pos hnull, trivial⟩
  rw [if_neg hnull]
  by_cases hone : optionType = otFollowOne
  · obtain ⟨q, hq, hqle, hqfound⟩ := h.scan (show isBlank 0 = false by decide)
      (show stop + 1 ≤ last by omega)
    obtain ⟨r, hr, hrle, hrfound⟩ := h.scan (show inWord 0 = false by decide) hqle
    have hle := hqfound.le
    have hle' := hrfound.le
    refine ⟨.addr (r - 1), ?_, show r - 1 < last by omega⟩
    rw [if_pos hone, hq, ok_bind, hr, ok_bind, stepBack_of_pos (by omega), ok_bind]
    rfl
  rw [if_neg hone]
  by_cases harbitrary : optionType = otFollowArbitrary
  · obtain ⟨r, hr, hrle, hrfound⟩ := h.scan (show inArguments 0 = false by decide)
      (show stop ≤ last by omega)
    have hle := hrfound.le
    obtain ⟨c, hload, _⟩ := h.load hrle
    simp only [if_pos harbitrary, hr, hload, ok_bind]
    by_cases hc : c = dash
    · refine ⟨.addr (r - 1 - 1), ?_, show r - 1 - 1 < last by omega⟩
      simp only [if_pos hc, stepBack_of_pos (show 0 < r by omega), ok_bind,
        stepBack_of_pos (show 0 < r - 1 by omega)]
      rfl
    · refine ⟨.addr (r - 1), ?_, show r - 1 < last by omega⟩
      simp only [if_neg hc, pure_bind, stepBack_of_pos (show 0 < r by omega), ok_bind]
      rfl
  · exact ⟨.addr stop, if_neg harbitrary, hstop⟩

/-- The parse of an option from the third character on stays in the copy, and returns a pointer
before its end. -/
theorem parseOption_safe (h : Terminated buf last) (hstart : 2 ≤ start) (hle : start ≤ stop)
    (hstop : stop < last) (classify : List UInt8 → Int8) :
    ∃ pointer, parseOption classify buf start stop = .ok pointer ∧ pointer.Before last := by
  obtain ⟨c, hload, _⟩ := h.load (show start ≤ last by omega)
  rw [parseOption, if_neg (by omega), hload, ok_bind]
  by_cases hc : c = equals
  · exact ⟨.null, if_pos hc, trivial⟩
  rw [if_neg hc]
  obtain ⟨quoted, hquoted, hbefore⟩ := detectQuoted_safe h hstop (stop + 1 - start)
    (show start + (stop + 1 - start) = stop + 1 by omega) (by omega)
  rw [hquoted, ok_bind]
  cases quoted with
  | closed p => exact ⟨.addr p, rfl, hbefore⟩
  | unclosed => exact ⟨.null, rfl, trivial⟩
  | absent =>
    have hname := bytesAt_of_le
      (show start + (stop + 1 - start) ≤ buf.length by rw [h.length_eq]; omega)
    simp only [hname, ok_bind]
    exact followOption_safe h (by omega) hstop _

end Option

/-- The variables at the start of an iteration: the pointer is in the copy, and once there is a
command it is behind it and the character that follows, unless it is at a NUL. -/
structure Ready (last : Nat) (s : State) : Prop where
  terminated : Terminated s.buf last
  p_le : s.p ≤ last
  behind : s.command ≠ none → 2 ≤ s.p ∨ s.buf[s.p]? = some nul
  options_le : s.options.length ≤ maxOptions - 1

section Loop

variable {last : Nat} {s : State}

theorem ready_start (line : CString) : Ready line.chars.length (start line) where
  terminated := line.terminated
  p_le := Nat.zero_le _
  behind h := absurd rfl h
  options_le := Nat.zero_le _

/-- The options that may follow, and the command. -/
def State.pending (s : State) : Nat :=
  (maxOptions - 1 - s.options.length) + if s.command = none then 1 else 0

/-- What is known after an iteration: less may follow than before, or it was the last one. -/
def Next.Fine (last pending : Nat) : Next → Prop
  | .again s => Ready last s ∧ s.pending < pending
  | .stop _ s => s.options.length ≤ maxOptions - 1

/-- The command, which is not empty, is behind the first character. -/
theorem readCommand_fine (h : Ready last s) (hcommand : s.command = none) {q p : Nat}
    (hq : q < p) (hp : p ≤ last) (hstop : ∃ c, s.buf[p]? = some c ∧ inWord c = false) :
    ∃ next, readCommand s q p = .ok next ∧ next.Fine last s.pending := by
  obtain ⟨c, hget, hc⟩ := hstop
  obtain ⟨c', hload, hget'⟩ := h.terminated.load hp
  obtain rfl : c = c' := Option.some.inj (hget.symm.trans hget')
  rw [readCommand, hload, ok_bind]
  have hfewer : maxOptions - 1 - s.options.length < s.pending := by
    rw [State.pending, if_pos hcommand]
    omega
  by_cases hblank : c = blank
  · have hlt : p < last := h.terminated.lt_last hp hget (by rw [hblank]; decide)
    obtain ⟨hstore, hterminated⟩ := h.terminated.store hlt nul
    rw [if_pos hblank, hstore, ok_bind]
    refine ⟨_, rfl, ⟨hterminated, ?_, fun _ => Or.inl ?_, h.options_le⟩, hfewer⟩
    · show p + 1 ≤ last
      omega
    · show 2 ≤ p + 1
      omega
  · have hnul : c = nul := by
      simpa [inWord, hblank] using hc
    rw [if_neg hblank, if_pos hnul]
    exact ⟨_, rfl, ⟨h.terminated, hp, fun _ => Or.inr (hnul ▸ hget), h.options_le⟩, hfewer⟩

/-- An option is recorded, unless it is one too many. -/
theorem readOption_fine (h : Ready last s) (hcommand : s.command ≠ none) {q p : Nat}
    (hbehind : 2 ≤ q) (hq : q < p) (hp : p ≤ last) (classify : Nat → List UInt8 → Int8) :
    ∃ next, readOption classify s q p = .ok next ∧ next.Fine last s.pending := by
  have hle := h.options_le
  rw [readOption]
  by_cases hmany : s.options.length = maxOptions - 1
  · exact ⟨_, if_pos hmany, hle⟩
  have hroom : s.options.length < maxOptions := by
    unfold maxOptions at *
    omega
  have hrecorded : (s.options ++ [q]).length ≤ maxOptions - 1 := by
    rw [List.length_append, List.length_singleton]
    omega
  have hfewer : maxOptions - 1 - (s.options ++ [q]).length < s.pending := by
    rw [State.pending, if_neg hcommand, List.length_append, List.length_singleton]
    omega
  obtain ⟨c, hload, hget⟩ := h.terminated.load hp
  obtain ⟨pointer, hpointer, hbefore⟩ := parseOption_safe h.terminated hbehind
    (show q ≤ p - 1 by omega) (show p - 1 < last by omega) (classify s.options.length)
  simp only [if_neg hmany, record, if_pos hroom, ok_bind, hload, hpointer]
  by_cases hc : c = nul
  · rw [if_pos hc]
    refine ⟨_, rfl, ?_⟩
    cases pointer with
    | null => exact hrecorded
    | addr pEnd =>
      rw [endOption]
      split
      · exact hrecorded
      · exact hrecorded
  · rw [if_neg hc]
    cases pointer with
    | null =>
      have hlt : p < last := h.terminated.lt_last hp hget hc
      obtain ⟨hstore, _⟩ := h.terminated.store hlt nul
      rw [cutOption, hstore, ok_bind]
      exact ⟨_, rfl, hrecorded⟩
    | addr pEnd =>
      have hend : pEnd < last := hbefore
      obtain ⟨c', hload', hget'⟩ := h.terminated.load (show pEnd + 1 ≤ last by omega)
      rw [cutOption, hload', ok_bind]
      by_cases hc' : c' = nul
      · exact ⟨_, if_pos hc', hrecorded⟩
      · have hlt : pEnd + 1 < last := h.terminated.lt_last (by omega) hget' hc'
        obtain ⟨hstore, hterminated⟩ := h.terminated.store hlt nul
        rw [if_neg hc', hstore, ok_bind]
        refine ⟨_, rfl, ⟨hterminated, ?_, fun _ => Or.inl ?_, hrecorded⟩, ?_⟩
        · show pEnd + 2 ≤ last
          omega
        · show 2 ≤ pEnd + 2
          omega
        · show maxOptions - 1 - (s.options ++ [q]).length + (if s.command = none then 1 else 0) <
            s.pending
          rw [if_neg hcommand]
          exact hfewer

theorem iteration_fine (h : Ready last s) (classify : Nat → List UInt8 → Int8) :
    ∃ next, iteration classify s = .ok next ∧ next.Fine last s.pending := by
  obtain ⟨q, hq, hqle, hqfound⟩ := h.terminated.scan (show isBlank 0 = false by decide) h.p_le
  obtain ⟨p, hp, hple, hpfound⟩ := h.terminated.scan (show inWord 0 = false by decide) hqle
  rw [iteration, hq, ok_bind, hp, ok_bind]
  by_cases hempty : p = q
  · exact ⟨_, if_pos hempty, h.options_le⟩
  have hlt : q < p := by
    have hle := hpfound.le
    omega
  rw [if_neg hempty]
  by_cases hcommand : s.command = none
  · rw [if_pos hcommand]
    exact readCommand_fine h hcommand hlt hple hpfound.stopped
  · rw [if_neg hcommand]
    refine readOption_fine h hcommand ?_ hlt hple classify
    have hle := hqfound.le
    rcases h.behind hcommand with hbehind | hnul
    · omega
    · -- at a NUL the scans would not have moved
      exfalso
      obtain ⟨c, hget, hword⟩ := hpfound.passed q (Nat.le_refl q) hlt
      rcases Nat.eq_or_lt_of_le hle with heq | hmoved
      · rw [← heq, hnul] at hget
        cases hget
        exact absurd hword (by decide)
      · obtain ⟨c', hget', hblank⟩ := hqfound.passed s.p (Nat.le_refl _) hmoved
        rw [hnul] at hget'
        cases hget'
        exact absurd hblank (by decide)

/-- A number of iterations that is larger than what may follow is enough, and more make no
difference. -/
theorem parseLoop_ends (h : Ready last s) (classify : Nat → List UInt8 → Int8) :
    ∃ outcome, outcome.state.options.length ≤ maxOptions - 1 ∧
      ∀ limit, s.pending < limit → parseLoop classify limit s = .ok outcome := by
  induction hn : s.pending using Nat.strong_induction_on generalizing s with
  | _ n ih =>
    obtain ⟨next, hnext, hfine⟩ := iteration_fine h classify
    cases next with
    | stop result s' =>
      refine ⟨⟨result, s'⟩, hfine, fun limit hlimit => ?_⟩
      obtain ⟨rest, rfl⟩ : ∃ rest, limit = rest + 1 := ⟨limit - 1, by omega⟩
      rw [parseLoop, hnext, ok_bind]
      rfl
    | again s' =>
      obtain ⟨hready, hless⟩ := hfine
      obtain ⟨outcome, hle, hrest⟩ := ih s'.pending (by omega) hready rfl
      refine ⟨outcome, hle, fun limit hlimit => ?_⟩
      obtain ⟨rest, rfl⟩ : ∃ rest, limit = rest + 1 := ⟨limit - 1, by omega⟩
      rw [parseLoop, hnext, ok_bind]
      exact hrest rest (by omega)

end Loop

theorem optionArray_end {s : State} (h : s.options.length ≤ maxOptions - 1) :
    s.optionArray[s.options.length]? = some none := by
  have hlt : s.options.length < maxOptions := by
    unfold maxOptions at *
    omega
  rw [State.optionArray, List.getElem?_append_right (by rw [List.length_map])]
  rw [List.length_map, Nat.sub_self, List.getElem?_replicate, if_pos (by omega)]

/-- For every command line and every classifier the parser ends, within 65 iterations and without an
access outside its copy; it has recorded at most 63 options, and the entry behind them is `NULL`. -/
theorem parseCmdLine_total (line : CString) (classify : Nat → List UInt8 → Int8) :
    ∃ outcome, (∀ limit, 65 ≤ limit → parseCmdLine classify limit line = .ok outcome) ∧
      outcome.state.options.length ≤ 63 ∧
      outcome.state.optionArray[outcome.state.options.length]? = some none := by
  obtain ⟨outcome, hle, hends⟩ := parseLoop_ends (ready_start line) classify
  exact ⟨outcome, fun limit hlimit => hends limit hlimit, hle, optionArray_end hle⟩

end HakunaMatata.CmdUtils
