import Mathlib.Tactic.SplitIfs
import HakunaMatata.CmdUtils.CommandLine

/-!
# Where an option is cut

At the start of an iteration the copy is what has been read, `done`, and the rest of the line as it
was, with the NUL behind it (`cursor`). The lemmas give the result of `parseOption` for a known rest
of the line, and from it where the iteration overwrites the line with a NUL.
-/

namespace HakunaMatata.CmdUtils

open Base

/-- The variables when the rest of the line is still to be read. -/
def cursor (command : Nat) (done rest : List UInt8) (options : List Nat) : State :=
  ⟨done ++ (rest ++ [nul]), done.length, some command, options⟩

theorem load_eq {buf before rest : List UInt8} {c : UInt8} {p : Nat}
    (hbuf : buf = before ++ c :: rest) (hp : p = before.length) : load buf p = .ok c := by
  subst hbuf hp
  simp [load]

theorem store_eq {buf before rest : List UInt8} {c : UInt8} {p : Nat} (c' : UInt8)
    (hbuf : buf = before ++ c :: rest) (hp : p = before.length) :
    store buf p c' = .ok (before ++ c' :: rest) := by
  subst hbuf hp
  rw [store_of_lt (by simp)]
  simp

/-- A word ends where nothing follows, or a blank. -/
def EndsWord (rest : List UInt8) : Prop :=
  rest = [] ∨ ∃ rest', rest = blank :: rest'

theorem EndsWord.stop {rest : List UInt8} (h : EndsWord rest) :
    ∃ c rest', rest ++ [nul] = c :: rest' ∧ inWord c = false ∧ (c = nul ↔ rest = []) := by
  rcases h with rfl | ⟨rest', rfl⟩
  · exact ⟨nul, [], rfl, by decide, by simp⟩
  · exact ⟨blank, rest' ++ [nul], rfl, by decide, by simp [nul, blank]⟩

theorem isBlank_of_mem_blanks {n : Nat} {c : UInt8} (h : c ∈ blanks n) : isBlank c = true := by
  rw [List.eq_of_mem_replicate h]
  decide

theorem isBlank_of_inWord {c : UInt8} (h : inWord c = true) : isBlank c = false := by
  unfold inWord at h
  unfold isBlank
  simp_all

section Iteration

variable {classify : Nat → List UInt8 → Int8} {command : Nat} {done : List UInt8}
  {options : List Nat}

theorem iteration_blanks (k : Nat) :
    iteration classify (cursor command done (blanks k) options) =
      .ok (.stop true (cursor command done (blanks k) options)) := by
  have hq : scan isBlank (done ++ (blanks k ++ [nul])) done.length =
      .ok (done.length + (blanks k).length) :=
    scan_eq done (blanks k) [] nul rfl rfl (fun _ => isBlank_of_mem_blanks) (by decide)
  have hp : scan inWord (done ++ (blanks k ++ [nul])) (done.length + (blanks k).length) =
      .ok (done.length + (blanks k).length) :=
    scan_eq (done ++ blanks k) [] [] nul (by simp) (by simp) (by simp) (by decide)
  rw [iteration]
  simp only [cursor, hq, hp, ok_bind]
  rfl

/-- The loops over blanks and over a word that follows them. -/
theorem scans_word (done : List UInt8) {k : Nat} {word rest : List UInt8} (hne : word ≠ [])
    (hword : ∀ c ∈ word, inWord c = true) (hrest : EndsWord rest) :
    scan isBlank (done ++ (blanks k ++ (word ++ rest) ++ [nul])) done.length =
        .ok (done.length + k) ∧
      scan inWord (done ++ (blanks k ++ (word ++ rest) ++ [nul])) (done.length + k) =
        .ok (done.length + k + word.length) := by
  obtain ⟨first, others, rfl⟩ := List.exists_cons_of_ne_nil hne
  obtain ⟨c, tail, htail, hc, _⟩ := hrest.stop
  have hlength : (blanks k).length = k := List.length_replicate
  constructor
  · have hscan := scan_eq done (blanks k) (others ++ (rest ++ [nul])) first
      (show done ++ (blanks k ++ (first :: others ++ rest) ++ [nul]) = _ by simp) rfl
      (fun _ => isBlank_of_mem_blanks) (isBlank_of_inWord (hword first List.mem_cons_self))
    rwa [hlength] at hscan
  · exact scan_eq (done ++ blanks k) (first :: others) tail c (by simp [← htail])
      (by simp [hlength]) hword hc

theorem iteration_word {k : Nat} {word rest : List UInt8} (hne : word ≠ [])
    (hword : ∀ c ∈ word, inWord c = true) (hrest : EndsWord rest) :
    iteration classify (cursor command done (blanks k ++ (word ++ rest)) options) =
      readOption classify (cursor command done (blanks k ++ (word ++ rest)) options)
        (done.length + k) (done.length + k + word.length) := by
  obtain ⟨hq, hp⟩ := scans_word done (k := k) hne hword hrest
  have hpos : 0 < word.length := List.length_pos_of_ne_nil hne
  rw [iteration, cursor, hq, ok_bind, hp, ok_bind, if_neg (by omega)]
  exact if_neg (Option.some_ne_none command)

theorem iteration_command {k : Nat} {word rest : List UInt8} (hne : word ≠ [])
    (hword : ∀ c ∈ word, inWord c = true) (hrest : EndsWord rest) :
    iteration classify ⟨blanks k ++ (word ++ rest) ++ [nul], 0, none, []⟩ =
      readCommand ⟨blanks k ++ (word ++ rest) ++ [nul], 0, none, []⟩ k (k + word.length) := by
  obtain ⟨hq, hp⟩ := scans_word [] (k := k) hne hword hrest
  rw [List.nil_append, List.length_nil, Nat.zero_add] at hq hp
  have hpos : 0 < word.length := List.length_pos_of_ne_nil hne
  rw [iteration, hq, ok_bind, hp, ok_bind, if_neg (by omega)]
  exact if_pos rfl

end Iteration

/-! ## The end of an option -/

section Option

variable {classify : List UInt8 → Int8} {buf : List UInt8}

theorem load_of_getElem? {array : List UInt8} {index : Nat} {c : UInt8}
    (h : array[index]? = some c) : load array index = .ok c := by
  simp [load, h]

theorem detectQuoted_absent {stop p fuel : Nat} (hfuel : p + fuel = stop + 1) (hpos : 0 < fuel)
    (h : ∀ j, p ≤ j → j < stop → ∃ c, buf[j]? = some c ∧ c ≠ equals) :
    detectQuoted buf stop fuel p = .ok .absent := by
  induction fuel generalizing p with
  | zero => exact absurd hpos (Nat.lt_irrefl 0)
  | succ fuel ih =>
    rw [detectQuoted]
    by_cases hend : p = stop
    · exact if_pos hend
    · obtain ⟨c, hc, hne⟩ := h p (Nat.le_refl p) (by omega)
      rw [if_neg hend, load_of_getElem? hc, ok_bind, if_neg hne]
      exact ih (by omega) (by omega) fun j hj => h j (by omega)

/-- Behind the first equals sign of the name a quotation mark opens a text. -/
theorem detectQuoted_open {stop p fuel sign : Nat} (hfuel : p + fuel = stop + 1)
    (hsign : p ≤ sign) (hstop : sign < stop)
    (h : ∀ j, p ≤ j → j < sign → ∃ c, buf[j]? = some c ∧ c ≠ equals)
    (hequals : buf[sign]? = some equals) (hquote : buf[sign + 1]? = some quote) :
    detectQuoted buf stop fuel p = closeQuotes buf (sign + 2) := by
  induction fuel generalizing p with
  | zero => omega
  | succ fuel ih =>
    rw [detectQuoted, if_neg (by omega)]
    rcases Nat.eq_or_lt_of_le hsign with rfl | hlt
    · rw [load_of_getElem? hequals, ok_bind, if_pos rfl, load_of_getElem? hquote, ok_bind,
        if_pos rfl]
    · obtain ⟨c, hc, hne⟩ := h p (Nat.le_refl p) hlt
      rw [load_of_getElem? hc, ok_bind, if_neg hne]
      exact ih (by omega) hlt fun j hj => h j (by omega)

theorem exists_char_of_name (before name rest : List UInt8) (hbuf : buf = before ++ (name ++ rest))
    (hequals : equals ∉ name) {j : Nat} (hj : before.length ≤ j)
    (hlt : j < before.length + name.length) : ∃ c, buf[j]? = some c ∧ c ≠ equals := by
  have hin : j - before.length < name.length := by omega
  refine ⟨name[j - before.length], ?_, ?_⟩
  · rw [hbuf, List.getElem?_append_right hj, List.getElem?_append_left hin,
      List.getElem?_eq_getElem hin]
  · intro heq
    exact hequals (heq ▸ List.getElem_mem hin)

/-- The parse of a name without an equals sign goes by the type of the option. -/
theorem parseOption_plain {start stop : Nat} (before name rest : List UInt8)
    (hbuf : buf = before ++ (name ++ rest)) (hstart : start = before.length)
    (hstop : stop + 1 = start + name.length) (hne : name ≠ []) (hequals : equals ∉ name) :
    parseOption classify buf start stop = followOption buf (classify name) stop := by
  obtain ⟨first, others, rfl⟩ := List.exists_cons_of_ne_nil hne
  have hlength : stop + 1 - start = (first :: others).length := by omega
  have hget : ∀ j, start ≤ j → j < stop → ∃ c, buf[j]? = some c ∧ c ≠ equals :=
    fun j hj hlt => exists_char_of_name before _ rest hbuf hequals (by omega) (by omega)
  have hfirst : first ≠ equals := fun heq => hequals (heq ▸ List.mem_cons_self)
  have hname : bytesAt buf start (first :: others).length = .ok (first :: others) := by
    rw [hbuf, hstart]
    exact bytesAt_append rfl rfl rest
  rw [parseOption, if_neg (by simp at hstop; omega),
    load_eq (show buf = before ++ first :: (others ++ rest) by simp [hbuf]) hstart, ok_bind,
    if_neg hfirst,
    detectQuoted_absent (by simp at hstop; omega) (by simp at hstop; omega) hget, ok_bind, hlength]
  simp only [hname, ok_bind]

theorem parseOption_quoted {start stop : Nat} (before name content rest : List UInt8)
    (hbuf : buf = before ++ (name ++ equals :: quote :: (content ++ quote :: rest)))
    (hstart : start = before.length) (hstop : start + name.length < stop) (hne : name ≠ [])
    (hequals : equals ∉ name) (hcontent : ∀ c ∈ content, inQuotes c = true) :
    parseOption classify buf start stop =
      .ok (.addr (start + name.length + 2 + content.length)) := by
  obtain ⟨first, others, rfl⟩ := List.exists_cons_of_ne_nil hne
  have hget : ∀ j, start ≤ j → j < start + (first :: others).length →
      ∃ c, buf[j]? = some c ∧ c ≠ equals :=
    fun j hj hlt => exists_char_of_name before _ _ hbuf hequals (by omega) (by omega)
  have hfirst : first ≠ equals := fun heq => hequals (heq ▸ List.mem_cons_self)
  have hsign : buf[start + (first :: others).length]? = some equals := by
    simp [hbuf, hstart]
  have hopen : buf[start + (first :: others).length + 1]? = some quote := by
    rw [hbuf, hstart, Nat.add_assoc, List.getElem?_append_right (by omega),
      Nat.add_sub_cancel_left, List.getElem?_append_right (by omega), Nat.add_sub_cancel_left]
    rfl
  have hscan : scan inQuotes buf (start + (first :: others).length + 2) =
      .ok (start + (first :: others).length + 2 + content.length) :=
    scan_eq (before ++ (first :: others ++ [equals, quote])) content rest quote (by simp [hbuf])
      (by simp [hstart]; omega) hcontent (by decide)
  have hclose : load buf (start + (first :: others).length + 2 + content.length) = .ok quote :=
    load_eq (show buf = (before ++ (first :: others ++ [equals, quote] ++ content)) ++
      quote :: rest by simp [hbuf]) (by simp [hstart]; omega)
  rw [parseOption, if_neg (by omega),
    load_eq (show buf = before ++ first :: (others ++ equals :: quote ::
      (content ++ quote :: rest)) by simp [hbuf]) hstart, ok_bind, if_neg hfirst,
    detectQuoted_open (by omega) (Nat.le_add_right start _) hstop hget hsign hopen, closeQuotes,
    hscan, ok_bind, hclose, ok_bind, if_neg (by decide)]
  rfl

theorem followOption_single {optionType : Int8} (hnull : optionType ≠ otNull)
    (hone : optionType ≠ otFollowOne) (harbitrary : optionType ≠ otFollowArbitrary) (stop : Nat) :
    followOption buf optionType stop = .ok (.addr stop) := by
  rw [followOption, if_neg hnull, if_neg hone, if_neg harbitrary]
  rfl

theorem followOption_one {stop g : Nat} {c : UInt8} (before word rest : List UInt8)
    (hbuf : buf = before ++ (blanks g ++ (word ++ c :: rest))) (hstop : stop + 1 = before.length)
    (hword : ∀ c ∈ word, inWord c = true) (hc : inWord c = false)
    (hempty : word = [] → c = nul) :
    followOption buf otFollowOne stop = .ok (.addr (stop + g + word.length)) := by
  have hlength : (blanks g).length = g := List.length_replicate
  have hblanks : scan isBlank buf (stop + 1) = .ok (stop + 1 + g) := by
    obtain ⟨first, others, hsplit, hfirst⟩ : ∃ first others,
        word ++ c :: rest = first :: others ∧ isBlank first = false := by
      cases word with
      | nil => exact ⟨c, rest, rfl, by rw [hempty rfl]; decide⟩
      | cons first others =>
        exact ⟨first, others ++ c :: rest, rfl,
          isBlank_of_inWord (hword first List.mem_cons_self)⟩
    rw [hsplit] at hbuf
    have hscan := scan_eq before (blanks g) others first hbuf hstop
      (fun _ => isBlank_of_mem_blanks) hfirst
    rwa [hlength] at hscan
  have hwords : scan inWord buf (stop + 1 + g) = .ok (stop + 1 + g + word.length) :=
    scan_eq (before ++ blanks g) word rest c (by simp [hbuf]) (by simp [hlength, hstop]) hword hc
  rw [followOption, if_neg (by decide), if_pos rfl, hblanks, ok_bind, hwords, ok_bind, stepBack,
    if_neg (by omega), ok_bind]
  show Except.ok (Pointer.addr (stop + 1 + g + word.length - 1)) = _
  congr 2
  omega

/-- The arguments end before the next dash, or at the end of the line. The dash and the character
before it are left out. -/
theorem followOption_arbitrary {stop : Nat} {c : UInt8} (before front rest : List UInt8)
    (hbuf : buf = before ++ (front ++ c :: rest)) (hstop : stop = before.length)
    (hfront : ∀ c ∈ front, inArguments c = true) (hc : inArguments c = false)
    (hlong : 2 ≤ stop + front.length) :
    followOption buf otFollowArbitrary stop =
      .ok (.addr (stop + front.length - if c = dash then 2 else 1)) := by
  have hscan : scan inArguments buf stop = .ok (stop + front.length) :=
    scan_eq before front rest c hbuf hstop hfront hc
  have hload : load buf (stop + front.length) = .ok c :=
    load_eq (show buf = (before ++ front) ++ c :: rest by simp [hbuf]) (by simp [hstop])
  rw [followOption, if_neg (by decide), if_neg (by decide), if_pos rfl, hscan, ok_bind, hload,
    ok_bind]
  by_cases hdash : c = dash
  · simp only [if_pos hdash, stepBack, if_neg (show ¬ stop + front.length = 0 by omega), ok_bind,
      if_neg (show ¬ stop + front.length - 1 = 0 by omega)]
    rfl
  · simp only [if_neg hdash, pure_bind, stepBack,
      if_neg (show ¬ stop + front.length = 0 by omega), ok_bind]
    rfl

end Option

/-! ## Runs that return true -/

/-- The loop returns true from these variables, with those. -/
def Runs (classify : Nat → List UInt8 → Int8) (s s' : State) : Prop :=
  ∃ limit, parseLoop classify limit s = .ok ⟨true, s'⟩

section Runs

variable {classify : Nat → List UInt8 → Int8} {s s' : State}

/-- The next iteration or the result leads to the end of a run. -/
def Next.Leads (classify : Nat → List UInt8 → Int8) (s' : State) : Next → Prop
  | .again s => Runs classify s s'
  | .stop result s => result = true ∧ s = s'

theorem Runs.first (h : Runs classify s s') :
    ∃ next, iteration classify s = .ok next ∧ next.Leads classify s' := by
  obtain ⟨limit, hrun⟩ := h
  cases limit with
  | zero => cases hrun
  | succ limit =>
    rw [parseLoop] at hrun
    obtain ⟨next, hnext, hrun⟩ := bind_eq_ok.mp hrun
    refine ⟨next, hnext, ?_⟩
    cases next with
    | again s₁ => exact ⟨limit, hrun⟩
    | stop result s₁ =>
      cases hrun
      exact ⟨rfl, rfl⟩

/-- What reading an option does, unless it is one too many. -/
theorem readOption_cases {q p : Nat} {next : Next} (h : readOption classify s q p = .ok next) :
    next = .stop false s ∨ ∃ c pointer, load s.buf p = .ok c ∧
      parseOption (classify s.options.length) s.buf q (p - 1) = .ok pointer ∧
      (if c = nul then .ok (endOption { s with options := s.options ++ [q] } q pointer)
        else cutOption { s with options := s.options ++ [q] } p pointer) = .ok next := by
  rw [readOption] at h
  by_cases hmany : s.options.length = maxOptions - 1
  · rw [if_pos hmany] at h
    cases h
    exact Or.inl rfl
  · rw [if_neg hmany] at h
    obtain ⟨recorded, hrecorded, h⟩ := bind_eq_ok.mp h
    rw [record] at hrecorded
    split at hrecorded
    · cases hrecorded
      obtain ⟨c, hc, h⟩ := bind_eq_ok.mp h
      obtain ⟨pointer, hpointer, h⟩ := bind_eq_ok.mp h
      exact Or.inr ⟨c, pointer, hc, hpointer, h⟩
    · cases hrecorded

/-- Options are only added, a NUL stays, and so does the command. -/
structure Grows (s s' : State) : Prop where
  command : ∀ start, s.command = some start → s'.command = some start
  options : s.options <+: s'.options
  nuls : ∀ j : Nat, s.buf[j]? = some nul → s'.buf[j]? = some nul

theorem Grows.refl (s : State) : Grows s s :=
  ⟨fun _ h => h, List.prefix_refl _, fun _ h => h⟩

theorem Grows.trans {s₁ s₂ s₃ : State} (h : Grows s₁ s₂) (h' : Grows s₂ s₃) : Grows s₁ s₃ :=
  ⟨fun start hstart => h'.command start (h.command start hstart), h.options.trans h'.options,
    fun j hj => h'.nuls j (h.nuls j hj)⟩

theorem getElem?_of_store {buf buf' : List UInt8} {p j : Nat} (h : store buf p nul = .ok buf')
    (hj : buf[j]? = some nul) : buf'[j]? = some nul := by
  unfold store at h
  split at h
  · cases h
    rw [List.getElem?_set]
    split_ifs
    · rfl
    · exact hj
  · cases h

/-- The variables of a next iteration or of the result. -/
def Next.state : Next → State
  | .again s => s
  | .stop _ s => s

theorem cutOption_grows {p : Nat} {pointer : Pointer} {next : Next}
    (h : cutOption s p pointer = .ok next) : Grows s next.state := by
  cases pointer with
  | null =>
    obtain ⟨buf, hbuf, h⟩ := bind_eq_ok.mp h
    cases h
    exact ⟨fun _ h => h, List.prefix_refl _, fun j hj => getElem?_of_store hbuf hj⟩
  | addr pEnd =>
    rw [cutOption] at h
    obtain ⟨c, _, h⟩ := bind_eq_ok.mp h
    split at h
    · cases h
      exact Grows.refl s
    · obtain ⟨buf, hbuf, h⟩ := bind_eq_ok.mp h
      cases h
      exact ⟨fun _ h => h, List.prefix_refl _, fun j hj => getElem?_of_store hbuf hj⟩

theorem endOption_state (s : State) (q : Nat) (pointer : Pointer) :
    (endOption s q pointer).state = s := by
  cases pointer with
  | null => rfl
  | addr pEnd =>
    rw [endOption]
    split <;> rfl

theorem endOption_leads {q : Nat} {pointer : Pointer}
    (h : (endOption s q pointer).Leads classify s') : s' = s := by
  cases pointer with
  | null => exact absurd h.1 (by decide)
  | addr pEnd =>
    rw [endOption] at h
    split at h
    · exact absurd h.1 (by decide)
    · exact h.2.symm

/-- An option that is read is recorded, unless the result is false. -/
theorem readOption_grows {q p : Nat} {next : Next} (h : readOption classify s q p = .ok next) :
    next = .stop false s ∨ Grows { s with options := s.options ++ [q] } next.state := by
  rcases readOption_cases h with hfalse | ⟨c, pointer, _, _, hnext⟩
  · exact Or.inl hfalse
  · right
    split at hnext
    · cases hnext
      rw [endOption_state]
      exact Grows.refl _
    · exact cutOption_grows hnext

theorem iteration_grows {next : Next} (h : iteration classify s = .ok next) :
    Grows s next.state := by
  rw [iteration] at h
  obtain ⟨q, _, h⟩ := bind_eq_ok.mp h
  obtain ⟨p, _, h⟩ := bind_eq_ok.mp h
  split at h
  · cases h
    exact Grows.refl s
  split at h
  · rename_i hnone
    have hcommand : ∀ {start : Nat} {P : Prop}, s.command = some start → P := by
      intro start P hsome
      rw [hnone] at hsome
      cases hsome
    rw [readCommand] at h
    obtain ⟨c, _, h⟩ := bind_eq_ok.mp h
    split at h
    · obtain ⟨buf, hbuf, h⟩ := bind_eq_ok.mp h
      cases h
      exact ⟨fun _ => hcommand, List.prefix_refl _, fun j hj => getElem?_of_store hbuf hj⟩
    split at h
    · cases h
      exact ⟨fun _ => hcommand, List.prefix_refl _, fun _ hj => hj⟩
    · cases h
  · rcases readOption_grows h with rfl | hgrows
    · exact Grows.refl s
    · exact ⟨hgrows.command, (List.prefix_append _ _).trans hgrows.options, hgrows.nuls⟩

theorem Runs.grows (h : Runs classify s s') : Grows s s' := by
  obtain ⟨limit, hrun⟩ := h
  induction limit generalizing s with
  | zero => cases hrun
  | succ limit ih =>
    rw [parseLoop] at hrun
    obtain ⟨next, hnext, hrun⟩ := bind_eq_ok.mp hrun
    cases next with
    | again s₁ => exact (iteration_grows hnext).trans (ih hrun)
    | stop result s₁ =>
      cases hrun
      exact iteration_grows hnext

end Runs

section Word

variable {classify : Nat → List UInt8 → Int8} {command k : Nat} {done word : List UInt8}
  {options : List Nat} {s' : State}

theorem Runs.reads_word {rest : List UInt8}
    (h : Runs classify (cursor command done (blanks k ++ (word ++ rest)) options) s')
    (hne : word ≠ []) (hword : ∀ c ∈ word, inWord c = true) (hrest : EndsWord rest) :
    ∃ c pointer next,
      load (done ++ (blanks k ++ (word ++ rest) ++ [nul])) (done.length + k + word.length) = .ok c ∧
      parseOption (classify options.length) (done ++ (blanks k ++ (word ++ rest) ++ [nul]))
        (done.length + k) (done.length + k + word.length - 1) = .ok pointer ∧
      (if c = nul then
          .ok (endOption (cursor command done (blanks k ++ (word ++ rest))
            (options ++ [done.length + k])) (done.length + k) pointer)
        else cutOption (cursor command done (blanks k ++ (word ++ rest))
          (options ++ [done.length + k])) (done.length + k + word.length) pointer) = .ok next ∧
      next.Leads classify s' := by
  obtain ⟨next, hnext, hleads⟩ := h.first
  rw [iteration_word hne hword hrest] at hnext
  rcases readOption_cases hnext with rfl | ⟨c, pointer, hload, hparse, hresult⟩
  · exact absurd hleads.1 (by decide)
  · exact ⟨c, pointer, next, hload, hparse, hresult, hleads⟩

theorem Runs.word_mem {rest : List UInt8}
    (h : Runs classify (cursor command done (blanks k ++ (word ++ rest)) options) s')
    (hne : word ≠ []) (hword : ∀ c ∈ word, inWord c = true) (hrest : EndsWord rest) :
    done.length + k ∈ s'.options := by
  obtain ⟨next, hnext, hleads⟩ := h.first
  rw [iteration_word hne hword hrest] at hnext
  rcases readOption_grows hnext with rfl | hgrows
  · exact absurd hleads.1 (by decide)
  · have hmem : done.length + k ∈ next.state.options := hgrows.options.subset (by simp)
    cases next with
    | again s₁ => exact hleads.grows.options.subset hmem
    | stop result s₁ =>
      obtain ⟨_, rfl⟩ := hleads
      exact hmem

theorem Runs.last_word (h : Runs classify (cursor command done (blanks k ++ word) options) s')
    (hne : word ≠ []) (hword : ∀ c ∈ word, inWord c = true) :
    s' = cursor command done (blanks k ++ word) (options ++ [done.length + k]) := by
  rw [← List.append_nil word] at h
  obtain ⟨c, pointer, next, hload, _, hresult, hleads⟩ := h.reads_word hne hword (Or.inl rfl)
  have hnul : load (done ++ (blanks k ++ (word ++ []) ++ [nul])) (done.length + k + word.length) =
      .ok nul :=
    load_eq (show done ++ (blanks k ++ (word ++ []) ++ [nul]) = (done ++ (blanks k ++ word)) ++
      nul :: [] by simp) (by simp [blanks]; omega)
  obtain rfl : nul = c := Except.ok.inj (hnul.symm.trans hload)
  rw [if_pos rfl] at hresult
  cases hresult
  have hstate := endOption_leads hleads
  rwa [List.append_nil] at hstate

/-- If the parse of the word gives a pointer, the option is of this length. -/
def EndsAfter (classify : Nat → List UInt8 → Int8) (n : Nat) (done : List UInt8) (k : Nat)
    (word rest : List UInt8) (length : Nat) : Prop :=
  ∀ pEnd, parseOption (classify n) (done ++ (blanks k ++ (word ++ rest) ++ [nul]))
      (done.length + k) (done.length + k + word.length - 1) = .ok (.addr pEnd) →
    pEnd + 1 = done.length + k + length

/-- A word that a blank follows is the last option if it extends to the end of the line, and
otherwise the character behind the option is overwritten. -/
theorem Runs.word_cut {rest : List UInt8} {length : Nat}
    (h : Runs classify (cursor command done (blanks k ++ (word ++ blank :: rest)) options) s')
    (hne : word ≠ []) (hword : ∀ c ∈ word, inWord c = true)
    (hends : EndsAfter classify options.length done k word (blank :: rest) length) :
    (length = (word ++ blank :: rest).length →
      s' = cursor command done (blanks k ++ (word ++ blank :: rest))
        (options ++ [done.length + k])) ∧
    ∀ front c tail, word ++ blank :: rest = front ++ c :: tail → c ≠ nul → length = front.length →
      Runs classify (cursor command (done ++ (blanks k ++ (front ++ [nul]))) tail
        (options ++ [done.length + k])) s' := by
  obtain ⟨c, pointer, next, hload, hparse, hresult, hleads⟩ :=
    h.reads_word hne hword (Or.inr ⟨rest, rfl⟩)
  have hblank : load (done ++ (blanks k ++ (word ++ blank :: rest) ++ [nul]))
      (done.length + k + word.length) = .ok blank :=
    load_eq (show done ++ (blanks k ++ (word ++ blank :: rest) ++ [nul]) =
      (done ++ (blanks k ++ word)) ++ blank :: (rest ++ [nul]) by simp) (by simp [blanks]; omega)
  obtain rfl : blank = c := Except.ok.inj (hblank.symm.trans hload)
  rw [if_neg (by decide)] at hresult
  cases pointer with
  | null =>
    obtain ⟨buf, _, hresult⟩ := bind_eq_ok.mp hresult
    cases hresult
    exact absurd hleads.1 (by decide)
  | addr pEnd =>
    have hend := hends pEnd hparse
    refine ⟨fun hlength => ?_, fun front c tail hsplit hc hlength => ?_⟩
    · have hnul : load (done ++ (blanks k ++ (word ++ blank :: rest) ++ [nul])) (pEnd + 1) =
          .ok nul :=
        load_eq (show _ = (done ++ (blanks k ++ (word ++ blank :: rest))) ++ nul :: [] by simp)
          (by rw [hend, hlength]; simp [blanks]; omega)
      simp only [cutOption, cursor, hnul, ok_bind, if_true] at hresult
      cases hresult
      exact hleads.2.symm
    · have hparts : done ++ (blanks k ++ (word ++ blank :: rest) ++ [nul]) =
          (done ++ (blanks k ++ front)) ++ c :: (tail ++ [nul]) := by
        rw [hsplit]
        simp
      have hpos : pEnd + 1 = (done ++ (blanks k ++ front)).length := by
        rw [hend, hlength]
        simp [blanks]
        omega
      simp only [cutOption, cursor, load_eq hparts hpos, store_eq nul hparts hpos, ok_bind,
        if_neg hc] at hresult
      cases hresult
      have hbehind : pEnd + 2 = (done ++ (blanks k ++ (front ++ [nul]))).length := by
        simp [blanks]
        omega
      have hbuf : done ++ (blanks k ++ front) ++ nul :: (tail ++ [nul]) =
          done ++ (blanks k ++ (front ++ [nul])) ++ (tail ++ [nul]) := by
        simp
      rw [cursor, ← hbehind, ← hbuf]
      exact hleads

end Word

end HakunaMatata.CmdUtils
