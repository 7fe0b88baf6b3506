import HakunaMatata.CmdUtils.Pieces
import HakunaMatata.CmdUtils.Safety

/-!
# When parsing a command line loses nothing

`Clean.keeps` follows the cuts of a line that meets the condition: each string is a piece of the
line between two cuts, and the cuts are at blanks. In the other direction, `clean_of_kept`, an
option that does not meet the condition is cut inside a word, which loses a character, or in front
of an argument, which is then taken for an option.
-/

namespace HakunaMatata.CmdUtils

open Base

/-! ## Strings between cuts -/

section Keeps

theorem solidFrom_append (start : Nat) (chars chars' : List UInt8) :
    solidFrom start (chars ++ chars') =
      solidFrom start chars ++ solidFrom (start + chars.length) chars' := by
  rw [solidFrom, List.zipIdx_append, List.filter_append]
  rfl

theorem solidFrom_blanks (start n : Nat) : solidFrom start (blanks n) = [] := by
  induction n generalizing start with
  | zero => rfl
  | succ n ih => exact ih (start + 1)

theorem solidFrom_blank_cons (start : Nat) (chars : List UInt8) :
    solidFrom start (blank :: chars) = solidFrom (start + 1) chars :=
  rfl

/-- The new options contain the letters that were still to be read, and start at names. -/
def Keeps (done : List UInt8) (letters : List Letter) (options : List Nat) (s : State) : Prop :=
  ∃ behind starts, s.buf = done ++ behind ∧ s.options = options ++ starts ∧
    covered s.buf starts = solidFrom done.length (text letters) ∧
    ∀ start ∈ starts, ∃ j c, start = done.length + j ∧ letters[j]? = some (c, true)

variable {command k : Nat} {done : List UInt8} {letters front : List Letter} {options : List Nat}
  {s : State}

theorem keeps_blanks (k : Nat) :
    Keeps done (unmarked (blanks k)) options (cursor command done (blanks k) options) := by
  refine ⟨_, [], rfl, (List.append_nil _).symm, ?_, fun start h => absurd h List.not_mem_nil⟩
  rw [text_unmarked, solidFrom_blanks]
  rfl

/-- The letter at the start of what is recorded is one at which a name starts. -/
theorem getElem?_blanks_append {c : UInt8} (hfront : front[0]? = some (c, true))
    (rest : List Letter) :
    (unmarked (blanks k) ++ (front ++ rest))[k]? = some (c, true) := by
  have hpos : 0 < front.length := by
    by_contra hnot
    rw [List.getElem?_eq_none (by omega)] at hfront
    cases hfront
  rw [List.getElem?_append_right (by simp), length_unmarked, length_blanks, Nat.sub_self,
    List.getElem?_append_left hpos, hfront]

theorem keeps_last {c : UInt8} (hfront : front[0]? = some (c, true)) (hnul : nul ∉ text front) :
    Keeps done (unmarked (blanks k) ++ front) options
      (cursor command done (blanks k ++ text front) (options ++ [done.length + k])) := by
  refine ⟨_, [done.length + k], rfl, rfl, ?_, ?_⟩
  · have hstring : stringAt (done ++ (blanks k ++ text front ++ [nul])) (done.length + k) =
        text front := by
      have happend := stringAt_append (done ++ blanks k) [] hnul
      rwa [List.length_append, length_blanks, List.append_assoc, ← List.append_assoc (blanks k)]
        at happend
    simp only [covered, cursor, List.flatMap_cons, List.flatMap_nil, List.append_nil, hstring]
    rw [text_append, text_unmarked, solidFrom_append, solidFrom_blanks, length_blanks]
    rfl
  · intro start hstart
    rw [List.mem_singleton] at hstart
    have hletter := getElem?_blanks_append (k := k) hfront []
    rw [List.append_nil] at hletter
    exact ⟨k, c, hstart, hletter⟩

/-- An option that is cut at a blank, and the rest of the line behind it. -/
theorem keeps_cut {c : UInt8} (hfront : front[0]? = some (c, true)) (hnul : nul ∉ text front)
    (h : Keeps (done ++ (blanks k ++ (text front ++ [nul]))) letters
      (options ++ [done.length + k]) s) :
    Keeps done (unmarked (blanks k) ++ (front ++ (blank, false) :: letters)) options s := by
  obtain ⟨behind, starts, hbuf, hoptions, hcovered, hnames⟩ := h
  have hparts : s.buf = (done ++ blanks k) ++ (text front ++ 0 :: behind) := by
    rw [hbuf]
    simp [nul]
  have hstring : stringAt s.buf (done.length + k) = text front := by
    have happend := stringAt_append (done ++ blanks k) behind hnul
    rwa [← hparts, List.length_append, length_blanks] at happend
  have hlength : (done ++ (blanks k ++ (text front ++ [nul]))).length =
      done.length + k + (text front).length + 1 := by
    simp
    omega
  refine ⟨blanks k ++ (text front ++ 0 :: behind), (done.length + k) :: starts, ?_, ?_, ?_, ?_⟩
  · rw [hparts, List.append_assoc]
  · rw [hoptions]
    simp
  · rw [covered, List.flatMap_cons, hstring]
    show _ ++ covered s.buf starts = _
    rw [hcovered, hlength, text_append, text_append, text_unmarked, text_cons, solidFrom_append,
      solidFrom_blanks, solidFrom_append, solidFrom_blank_cons, length_blanks]
    rfl
  · intro start hstart
    rcases List.mem_cons.mp hstart with rfl | hrest
    · exact ⟨k, c, rfl, getElem?_blanks_append hfront _⟩
    · obtain ⟨j, c', rfl, hletter⟩ := hnames start hrest
      refine ⟨k + (text front).length + 1 + j, c', by rw [hlength]; omega, ?_⟩
      have htext : (text front).length = front.length := List.length_map _
      rw [htext, List.getElem?_append_right (by simp; omega),
        List.getElem?_append_right (by simp; omega), length_unmarked, length_blanks,
        show k + front.length + 1 + j - k - front.length = j + 1 by omega]
      exact hletter

end Keeps

/-! ## A line that meets the condition -/

section Clean

variable {classify : Nat → List UInt8 → Int8} {command n k trail : Nat} {done : List UInt8}
  {options : List Nat} {items remaining : List Item} {s' : State}

/-- The piece is the last option, or it is cut at the blank behind it. -/
theorem Piece.step (h : Piece classify options.length trail items remaining)
    (hdone : 0 < done.length)
    (hrun : Runs classify (cursor command done (text (pending k items trail)) options) s') :
    ∃ front, front[0]? = some (dash, true) ∧ nul ∉ text front ∧
      ((remaining = [] ∧ pending k items trail = unmarked (blanks k) ++ front ∧
          s' = cursor command done (blanks k ++ text front) (options ++ [done.length + k])) ∨
        ∃ k', pending k items trail =
            unmarked (blanks k) ++ (front ++ (blank, false) :: pending k' remaining trail) ∧
          Runs classify (cursor command (done ++ (blanks k ++ (text front ++ [nul])))
            (text (pending k' remaining trail)) (options ++ [done.length + k])) s') := by
  obtain ⟨front, tail, word, after, hpiece⟩ := h k
  have hnul : nul ∉ text front := by
    have hpending := nul_not_mem_pending k items trail
    rw [hpiece.split, text_append, text_append] at hpending
    exact fun h => hpending (List.mem_append_right _ (List.mem_append_left _ h))
  refine ⟨front, hpiece.starts, hnul, ?_⟩
  have htext : text (front ++ tail) = word ++ (after ++ text tail) := by
    rw [text_append, hpiece.chars, List.append_assoc]
  have hends := fun h => hpiece.ends h done hdone
  rw [hpiece.split] at hrun ⊢
  rcases hpiece.remains with ⟨rfl, hremaining⟩ | ⟨k', rfl⟩
  · rw [List.append_nil] at hrun htext ⊢
    exact Or.inl ⟨hremaining, rfl,
      hrun.finish htext hpiece.nonempty hpiece.inWord hpiece.endsWord hends⟩
  · have hmore : after ++ text ((blank, false) :: pending k' remaining trail) ≠ [] :=
      List.append_ne_nil_of_right_ne_nil _ (List.cons_ne_nil _ _)
    exact Or.inr ⟨k', rfl, hrun.cut htext hpiece.nonempty hpiece.inWord hpiece.endsWord hmore
      (by decide) (hends hmore)⟩

/-- A run that has these options still to read, from the `n`th one on, keeps them. -/
def KeepsFrom (classify : Nat → List UInt8 → Int8) (command n trail : Nat) (items : List Item)
    (s' : State) : Prop :=
  ∀ (k : Nat) (done : List UInt8) (options : List Nat), options.length = n → 0 < done.length →
    Runs classify (cursor command done (text (pending k items trail)) options) s' →
    Keeps done (pending k items trail) options s'

theorem keepsFrom_nil : KeepsFrom classify command n trail [] s' := by
  intro k done options _ _ hrun
  obtain ⟨next, hnext, hleads⟩ := hrun.first
  rw [pending, text_unmarked, iteration_blanks] at hnext
  cases hnext
  obtain ⟨_, rfl⟩ := hleads
  exact keeps_blanks k

theorem Piece.keeps (h : Piece classify n trail items remaining)
    (hremaining : KeepsFrom classify command (n + 1) trail remaining s') :
    KeepsFrom classify command n trail items s' := by
  intro k done options hoptions hdone hrun
  rw [← hoptions] at h
  obtain ⟨front, hstarts, hnul, ⟨_, hletters, rfl⟩ | ⟨k', hletters, hrun'⟩⟩ := h.step hdone hrun
  · rw [hletters]
    exact keeps_last hstarts hnul
  · rw [hletters]
    have hdone' : 0 < (done ++ (blanks k ++ (text front ++ [nul]))).length := by
      rw [List.length_append]
      omega
    exact keeps_cut hstarts hnul
      (hremaining k' _ _ (by rw [List.length_append, hoptions]; rfl) hdone' hrun')

theorem Clean.keeps (h : Clean classify trail n items) :
    KeepsFrom classify command n trail items s' := by
  induction h with
  | nil n => exact keepsFrom_nil
  | quoted n item rest content inQuotes hform _ ih => exact (piece_quoted hform).keeps ih
  | single n item rest hform hone harbitrary _ ih =>
    exact (piece_single hform hone harbitrary).keeps ih
  | followOne n item rest argument hform hone _ ih => exact (piece_followOne hform hone).keeps ih
  | takesNext n item next rest hform hone hnext _ ih =>
    exact (piece_takesNext hform hone hnext).keeps ih
  | missesLast n item hform hone => exact (piece_missesLast hform hone).keeps keepsFrom_nil
  | followArbitrary n item rest arguments hform harbitrary hdash hlast _ ih =>
    exact (piece_followArbitrary hform harbitrary hdash hlast).keeps ih
  | endsLine n item hform _ htrail =>
    subst htrail
    exact (piece_endsLine hform).keeps keepsFrom_nil

end Clean

/-! ## A line that is kept -/

/-- No option starts at a letter without a mark, and no letter other than a blank is overwritten. -/
structure Kept (done : List UInt8) (letters : List Letter) (s : State) : Prop where
  names : ∀ j c, letters[j]? = some (c, false) → done.length + j ∉ s.options
  chars : ∀ j c mark, letters[j]? = some (c, mark) → c ≠ blank →
    s.buf[done.length + j]? ≠ some nul

section Kept

variable {classify : Nat → List UInt8 → Int8} {command n k trail : Nat} {done : List UInt8}
  {options : List Nat} {s' : State} {front letters more : List Letter} {letter : Letter}

theorem Kept.drop {done' : List UInt8} (h : Kept done (front ++ letters) s')
    (hlength : done'.length = done.length + front.length) : Kept done' letters s' := by
  have hbehind : ∀ j, (front ++ letters)[front.length + j]? = letters[j]? := by
    intro j
    rw [List.getElem?_append_right (Nat.le_add_right _ _), Nat.add_sub_cancel_left]
  constructor
  · intro j c hletter
    rw [hlength, Nat.add_assoc]
    exact h.names _ c ((hbehind j).trans hletter)
  · intro j c mark hletter hc
    rw [hlength, Nat.add_assoc]
    exact h.chars _ c mark ((hbehind j).trans hletter) hc

/-- The letters behind a cut. -/
theorem Kept.behind (h : Kept done (unmarked (blanks k) ++ (front ++ letter :: letters)) s') :
    Kept (done ++ (blanks k ++ (text front ++ [nul]))) letters s' := by
  have hsplit : unmarked (blanks k) ++ (front ++ letter :: letters) =
      (unmarked (blanks k) ++ (front ++ [letter])) ++ letters := by
    simp
  rw [hsplit] at h
  exact h.drop (by simp)

/-- The letter that a cut overwrites is a blank. -/
theorem Kept.cut_blank (h : Kept done (unmarked (blanks k) ++ (front ++ letter :: letters)) s')
    (hrun : Runs classify (cursor command (done ++ (blanks k ++ (text front ++ [nul])))
      (text letters) options) s') : letter.1 = blank := by
  by_contra hne
  have hletter : (unmarked (blanks k) ++ (front ++ letter :: letters))[k + front.length]? =
      some (letter.1, letter.2) := by
    rw [List.getElem?_append_right (by simp), length_unmarked, length_blanks,
      Nat.add_sub_cancel_left, List.getElem?_append_right (Nat.le_refl _), Nat.sub_self]
    rfl
  refine h.chars _ _ _ hletter hne (hrun.grows.nuls _ ?_)
  have hbuf : (cursor command (done ++ (blanks k ++ (text front ++ [nul]))) (text letters)
      options).buf = (done ++ (blanks k ++ text front)) ++ nul :: (text letters ++ [nul]) := by
    simp [cursor]
  rw [hbuf, List.getElem?_append_right (by simp)]
  simp

theorem exists_first {chars : List UInt8} (h : ¬ ∀ c ∈ chars, c = blank) :
    ∃ j c rest, chars = blanks j ++ c :: rest ∧ c ≠ blank := by
  induction chars with
  | nil => exact absurd (fun c hc => absurd hc List.not_mem_nil) h
  | cons c chars ih =>
    by_cases hc : c = blank
    · subst hc
      obtain ⟨j, c, rest, rfl, hne⟩ := ih fun hall => h (by simpa using hall)
      exact ⟨j + 1, c, rest, rfl, hne⟩
    · exact ⟨0, c, chars, rfl, hc⟩

/-- There are only blanks before the next name. -/
theorem Kept.all_blank {chars : List UInt8} (h : Kept done (unmarked chars ++ more) s')
    (hrun : Runs classify (cursor command done (text (unmarked chars ++ more)) options) s')
    (hnul : nul ∉ text (unmarked chars ++ more)) : ∀ c ∈ chars, c = blank := by
  by_contra hnot
  obtain ⟨j, c, rest, rfl, hc⟩ := exists_first hnot
  have hletter : (unmarked (blanks j ++ c :: rest) ++ more)[j]? = some (c, false) := by
    rw [unmarked_append, List.append_assoc, List.getElem?_append_right (by simp)]
    simp
  refine h.names j c hletter ?_
  -- the word that starts there
  have hsplit : text (unmarked (blanks j ++ c :: rest) ++ more) =
      blanks j ++ (c :: (rest ++ text more)) := by
    simp
  rw [hsplit] at hrun hnul
  have hnul' : nul ∉ c :: (rest ++ text more) := fun h => hnul (List.mem_append_right _ h)
  have hword : inWord c = true := inWord_of_ne (fun h => hnul' (h ▸ List.mem_cons_self)) hc
  rw [← List.takeWhile_append_dropWhile (p := inWord) (l := c :: (rest ++ text more))] at hrun
  refine hrun.word_mem ?_ (fun c h => List.mem_takeWhile_imp h) (endsWord_dropWhile hnul')
  rw [List.takeWhile_cons, if_pos hword]
  exact List.cons_ne_nil _ _

variable {item : Item} {rest : List Item}

/-- If the first option is cut at its length, the letter there is a blank, and only blanks follow it
up to the next name. -/
theorem Kept.cut {arguments : List Argument} {chars : List UInt8}
    (hkept : Kept done (pending k (item :: rest) trail) s')
    (hrun : Runs classify (cursor command done (text (pending k (item :: rest) trail)) options) s')
    (hform : item.form = .plain arguments)
    (hsplit : item.body ++ itemLetters rest trail = front ++ letter :: (unmarked chars ++ more))
    (hmore : item.form.chars ++ text (itemLetters rest trail) ≠ [])
    (hends : EndsAfter classify options.length done k item.name.chars
      (item.form.chars ++ text (itemLetters rest trail)) front.length) :
    letter.1 = blank ∧ ∀ c ∈ chars, c = blank := by
  have hnul := nul_not_mem_pending k (item :: rest) trail
  rw [pending, hsplit] at hkept hrun hnul
  have htext : text (front ++ letter :: (unmarked chars ++ more)) =
      item.name.chars ++ (item.form.chars ++ text (itemLetters rest trail)) := by
    rw [← hsplit, text_append, text_body, List.append_assoc]
  have hafter : EndsWord (item.form.chars ++ text (itemLetters rest trail)) := by
    rw [hform]
    exact endsWord_append (endsWord_arguments arguments) (endsWord_itemLetters rest trail)
  rw [text_append, text_append, text_cons, List.mem_append, List.mem_append, List.mem_cons] at hnul
  have hletter : letter.1 ≠ nul := fun h => hnul (Or.inr (Or.inr (Or.inl h.symm)))
  have hbehind : nul ∉ text (unmarked chars ++ more) := fun h => hnul (Or.inr (Or.inr (Or.inr h)))
  have hrun' := hrun.cut htext item.name.chars_ne_nil item.name.inWord_chars hafter hmore hletter
    hends
  exact ⟨hkept.cut_blank hrun', hkept.behind.all_blank hrun' hbehind⟩

end Kept

/-! ## Options that are cut elsewhere -/

section Options

variable {classify : Nat → List UInt8 → Int8} {command k trail : Nat} {done : List UInt8}
  {options : List Nat} {s' : State} {item next : Item} {rest : List Item}

theorem OptionName.length_letters (name : OptionName) :
    name.letters.length = name.chars.length := by
  rw [← length_text, text_name]

theorem Argument.chars_eq (argument : Argument) :
    argument.chars = blank :: (blanks argument.gap ++ argument.word.chars) :=
  rfl

theorem Word.not_blank (word : Word) : ¬ ∀ c ∈ word.chars, c = blank := by
  intro hall
  obtain ⟨c, hc⟩ := List.exists_mem_of_ne_nil _ word.nonempty
  obtain rfl := hall c hc
  exact absurd (word.inWord _ hc) (by decide)

/-- Arguments end with the last character of one of them. -/
theorem exists_last_argument {arguments : List Argument} {c : UInt8}
    (h : (arguments.flatMap Argument.chars).getLast? = some c) :
    ∃ argument ∈ arguments, argument.word.chars.getLast? = some c := by
  induction arguments with
  | nil => cases h
  | cons argument others ih =>
    rw [List.flatMap_cons, List.getLast?_append] at h
    cases hothers : (others.flatMap Argument.chars).getLast? with
    | none =>
      rw [hothers, Option.none_or, Argument.chars,
        List.getLast?_append_of_ne_nil _ argument.word.nonempty] at h
      exact ⟨argument, List.mem_cons_self, h⟩
    | some last =>
      rw [hothers, Option.some_or] at h
      obtain ⟨found, hmem, hlast⟩ := ih (hothers.trans h)
      exact ⟨found, List.mem_cons_of_mem _ hmem, hlast⟩

theorem getLast?_form (form : Form) : form.chars.getLast? ≠ some blank := by
  cases form with
  | quoted content inQuotes =>
    rw [Form.chars, ← List.cons_append, ← List.cons_append, List.getLast?_concat]
    decide
  | plain arguments =>
    intro h
    obtain ⟨argument, _, hlast⟩ := exists_last_argument h
    exact absurd (argument.word.inWord blank (List.mem_of_getLast? hlast)) (by decide)

/-- An option that misses its argument is followed by an option of one word. -/
theorem Kept.next_oneWord (hkept : Kept done (pending k (item :: next :: rest) trail) s')
    (hrun : Runs classify
      (cursor command done (text (pending k (item :: next :: rest) trail)) options) s')
    (hform : item.form = .plain [])
    (hone : classify options.length item.name.chars = otFollowOne) : next.OneWord := by
  intro hmem
  obtain ⟨word, left, hchars, hword⟩ := List.eq_append_cons_of_mem hmem
  have hinWord : ∀ c ∈ next.name.chars ++ word, inWord c = true := by
    intro c hc
    rcases List.mem_append.mp hc with hname | hrest
    · exact next.name.inWord_chars c hname
    · refine inWord_of_ne ?_ fun h => hword (h ▸ hrest)
      rintro rfl
      exact nul_not_mem_form next.form (hchars ▸ List.mem_append_left _ hrest)
  have hsplit : item.body ++ itemLetters (next :: rest) trail =
      (item.name.letters ++ (unmarked (blanks (next.gap + 1)) ++
        (next.name.letters ++ unmarked word))) ++
        (blank, false) :: (unmarked left ++ itemLetters rest trail) := by
    rw [itemLetters_cons, body_eq, body_eq, hform, hchars]
    simp [Form.chars]
  have hafter : item.form.chars ++ text (itemLetters (next :: rest) trail) =
      blanks (next.gap + 1) ++ ((next.name.chars ++ word) ++
        (blank :: (left ++ text (itemLetters rest trail)))) := by
    rw [itemLetters_cons, body_eq, hform, hchars]
    simp [Form.chars]
  have hends : EndsAfter classify options.length done k item.name.chars
      (item.form.chars ++ text (itemLetters (next :: rest) trail))
      (item.name.letters ++ (unmarked (blanks (next.gap + 1)) ++
        (next.name.letters ++ unmarked word))).length := by
    have hlength : (item.name.letters ++ (unmarked (blanks (next.gap + 1)) ++
        (next.name.letters ++ unmarked word))).length =
        item.name.chars.length + (next.gap + 1) + (next.name.chars ++ word).length := by
      simp only [List.length_append, OptionName.length_letters, length_unmarked, length_blanks]
      omega
    rw [hlength]
    exact endsAfter_one hone hafter hinWord (Or.inr ⟨_, rfl⟩)
      fun h => absurd h (List.append_ne_nil_of_left_ne_nil next.name.chars_ne_nil _)
  have hblank := (hkept.cut hrun hform hsplit (by simp [hafter, blanks]) hends).2
  -- then the option would end with a blank
  refine getLast?_form next.form ?_
  have hleft : blank :: left = blanks (left.length + 1) :=
    List.eq_replicate_of_mem (by simpa using hblank)
  rw [hchars, hleft, blanks_succ', ← List.append_assoc, List.getLast?_concat]

variable (hkept : Kept done (pending k (item :: rest) trail) s')
  (hrun : Runs classify (cursor command done (text (pending k (item :: rest) trail)) options) s')

include hkept hrun

/-- If the first option is cut behind its name, it is cut at a blank, and only blanks follow. -/
theorem Kept.cut_form {arguments : List Argument} {taken left : List UInt8} {c : UInt8}
    (hform : item.form = .plain arguments) (hchars : item.form.chars = taken ++ c :: left)
    (hends : EndsAfter classify options.length done k item.name.chars
      (item.form.chars ++ text (itemLetters rest trail))
      (item.name.chars.length + taken.length)) : c = blank ∧ ∀ x ∈ left, x = blank := by
  have hsplit : item.body ++ itemLetters rest trail =
      (item.name.letters ++ unmarked taken) ++
        (c, false) :: (unmarked left ++ itemLetters rest trail) := by
    rw [body_eq, hchars]
    simp
  refine hkept.cut hrun hform hsplit (by simp [hchars]) ?_
  rw [List.length_append, OptionName.length_letters, length_unmarked]
  exact hends

theorem Kept.no_arguments {arguments : List Argument}
    (hform : item.form = .plain arguments)
    (hone : classify options.length item.name.chars ≠ otFollowOne)
    (harbitrary : classify options.length item.name.chars ≠ otFollowArbitrary) :
    arguments = [] := by
  cases arguments with
  | nil => rfl
  | cons argument others =>
    have hchars : item.form.chars = [] ++ blank :: (blanks argument.gap ++
        (argument.word.chars ++ others.flatMap Argument.chars)) := by
      rw [hform, Form.chars, List.flatMap_cons, argument.chars_eq]
      simp
    have hblank := (hkept.cut_form hrun hform hchars (endsAfter_single hone harbitrary)).2
    refine absurd (fun c hc => hblank c ?_) argument.word.not_blank
    exact List.mem_append_right _ (List.mem_append_left _ hc)

theorem Kept.one_argument {argument : Argument} {others : List Argument}
    (hform : item.form = .plain (argument :: others))
    (hone : classify options.length item.name.chars = otFollowOne) : others = [] := by
  cases others with
  | nil => rfl
  | cons second others =>
    have hchars : item.form.chars = argument.chars ++ blank :: (blanks second.gap ++
        (second.word.chars ++ others.flatMap Argument.chars)) := by
      rw [hform, Form.chars, List.flatMap_cons, List.flatMap_cons, second.chars_eq]
      simp
    have hends : EndsAfter classify options.length done k item.name.chars
        (item.form.chars ++ text (itemLetters rest trail))
        (item.name.chars.length + argument.chars.length) := by
      rw [hchars, Argument.chars, List.length_append, length_blanks, ← Nat.add_assoc,
        List.append_assoc, List.append_assoc]
      exact endsAfter_one hone rfl argument.word.inWord (Or.inr ⟨_, rfl⟩)
        fun h => absurd h argument.word.nonempty
    have hblank := (hkept.cut_form hrun hform hchars hends).2
    refine absurd (fun c hc => hblank c ?_) second.word.not_blank
    exact List.mem_append_right _ (List.mem_append_left _ hc)

/-- The arguments of an option that takes any number of them contain no dash. -/
theorem Kept.no_dash {arguments : List Argument}
    (hdone : 0 < done.length) (hform : item.form = .plain arguments)
    (harbitrary : classify options.length item.name.chars = otFollowArbitrary)
    (hlast : item.name.rest.getLast? ≠ some dash) : dash ∉ item.form.chars := by
  intro hmem
  obtain ⟨before, left, hchars, hbefore⟩ := List.eq_append_cons_of_mem hmem
  -- the dash is not the first character, which is a blank
  have hne : before ≠ [] := by
    rintro rfl
    rw [hform] at hchars
    rcases endsWord_arguments arguments with hnil | ⟨chars, hblank⟩
    · rw [Form.chars, hnil] at hchars
      cases hchars
    · rw [Form.chars, hblank] at hchars
      exact absurd (List.cons.inj hchars).1 (by decide)
  have hbefore' : before = before.dropLast ++ [before.getLast hne] :=
    (List.dropLast_concat_getLast hne).symm
  have hnul : nul ∉ before := fun h =>
    nul_not_mem_form item.form (hchars ▸ List.mem_append_left _ h)
  have hends : EndsAfter classify options.length done k item.name.chars
      (item.form.chars ++ text (itemLetters rest trail))
      (item.name.chars.length + before.dropLast.length) := by
    have harbitrary' := endsAfter_arbitrary (k := k) (c := dash) harbitrary hlast
      (show item.form.chars ++ text (itemLetters rest trail) ++ [nul] = before ++ dash ::
        (left ++ text (itemLetters rest trail) ++ [nul]) by rw [hchars]; simp)
      (inArguments_of_not_mem hnul hbefore) (by decide) hdone
    have hpos := List.length_pos_of_ne_nil hne
    rw [if_pos rfl, Nat.add_sub_assoc hpos] at harbitrary'
    rw [List.length_dropLast]
    exact harbitrary'
  have hsplit : item.form.chars =
      before.dropLast ++ before.getLast hne :: (dash :: left) := by
    rw [hchars]
    nth_rewrite 1 [hbefore']
    simp
  have hblank := (hkept.cut_form hrun hform hsplit hends).2 dash List.mem_cons_self
  exact absurd hblank (by decide)

/-- If a name that ends with a dash takes arguments, it is the rest of the line. -/
theorem Kept.dash_last {arguments : List Argument}
    (hdone : 0 < done.length) (hform : item.form = .plain arguments)
    (harbitrary : classify options.length item.name.chars = otFollowArbitrary)
    (hlast : item.name.rest.getLast? = some dash) :
    item.form.chars ++ text (itemLetters rest trail) = [] := by
  by_contra hmore
  -- the scan stops at the dash, and the letter before it is overwritten
  obtain ⟨init, hrest⟩ := List.getLast?_eq_some_iff.mp hlast
  obtain ⟨front, letter, hfront⟩ :
      ∃ front letter, (dash, true) :: unmarked init = front ++ [letter] :=
    ⟨_, _, (List.dropLast_concat_getLast (List.cons_ne_nil _ _)).symm⟩
  have hname : item.name.letters = front ++ letter :: [(dash, false)] := by
    rw [OptionName.letters, hrest, unmarked_append, ← List.cons_append, hfront]
    simp
  have hlength : item.name.chars.length - 2 = front.length := by
    rw [← OptionName.length_letters, hname, List.length_append]
    rfl
  have hsplit : item.body ++ itemLetters rest trail =
      front ++ letter :: (unmarked [] ++ (dash, false) ::
        (unmarked item.form.chars ++ itemLetters rest trail)) := by
    rw [body_eq, hname]
    simp
  have hends : EndsAfter classify options.length done k item.name.chars
      (item.form.chars ++ text (itemLetters rest trail)) front.length := by
    rw [← hlength]
    exact endsAfter_dash harbitrary hlast hdone
  have hblank := (hkept.cut hrun hform hsplit hmore hends).1
  have hmem : letter.1 ∈ item.name.chars := by
    rw [← text_name, hname]
    simp
  exact absurd (item.name.inWord_chars _ (hblank ▸ hmem)) (by decide)

end Options

section Kept

variable {classify : Nat → List UInt8 → Int8} {command n k trail : Nat} {done : List UInt8}
  {options : List Nat} {items remaining : List Item} {s' : State}

/-- A run that keeps these options, from the `n`th one on, meets the condition. -/
def CleanFrom (classify : Nat → List UInt8 → Int8) (command n trail : Nat) (items : List Item)
    (s' : State) : Prop :=
  ∀ (k : Nat) (done : List UInt8) (options : List Nat), options.length = n → 0 < done.length →
    Runs classify (cursor command done (text (pending k items trail)) options) s' →
    Kept done (pending k items trail) s' → Clean classify trail n items

theorem Piece.clean (h : Piece classify options.length trail items remaining)
    (hdone : 0 < done.length)
    (hrun : Runs classify (cursor command done (text (pending k items trail)) options) s')
    (hkept : Kept done (pending k items trail) s')
    (hremaining : CleanFrom classify command (options.length + 1) trail remaining s') :
    Clean classify trail (options.length + 1) remaining := by
  obtain ⟨front, _, _, ⟨rfl, _, _⟩ | ⟨k', hletters, hrun'⟩⟩ := h.step hdone hrun
  · exact .nil _
  · rw [hletters] at hkept
    have hdone' : 0 < (done ++ (blanks k ++ (text front ++ [nul]))).length := by
      rw [List.length_append]
      omega
    exact hremaining k' _ _ List.length_append hdone' hrun' hkept.behind

variable {item : Item} {rest : List Item}

theorem clean_followOne {arguments : List Argument} (hform : item.form = .plain arguments)
    (hone : classify options.length item.name.chars = otFollowOne) (hdone : 0 < done.length)
    (hrun : Runs classify (cursor command done (text (pending k (item :: rest) trail)) options) s')
    (hkept : Kept done (pending k (item :: rest) trail) s')
    (ih : ∀ remaining : List Item, remaining.length ≤ rest.length →
      CleanFrom classify command (options.length + 1) trail remaining s') :
    Clean classify trail options.length (item :: rest) := by
  cases arguments with
  | nil =>
    cases rest with
    | nil => exact .missesLast _ item hform hone
    | cons next rest =>
      have hnext := hkept.next_oneWord hrun hform hone
      exact .takesNext _ item next rest hform hone hnext
        ((piece_takesNext hform hone hnext).clean hdone hrun hkept (ih rest (Nat.le_succ _)))
  | cons argument others =>
    obtain rfl := hkept.one_argument hrun hform hone
    exact .followOne _ item rest argument hform hone
      ((piece_followOne hform hone).clean hdone hrun hkept (ih rest (Nat.le_refl _)))

theorem clean_followArbitrary {arguments : List Argument} (hform : item.form = .plain arguments)
    (harbitrary : classify options.length item.name.chars = otFollowArbitrary)
    (hdone : 0 < done.length)
    (hrun : Runs classify (cursor command done (text (pending k (item :: rest) trail)) options) s')
    (hkept : Kept done (pending k (item :: rest) trail) s')
    (ih : CleanFrom classify command (options.length + 1) trail rest s') :
    Clean classify trail options.length (item :: rest) := by
  by_cases hlast : item.name.rest.getLast? = some dash
  · have hend := List.append_eq_nil_iff.mp (hkept.dash_last hrun hdone hform harbitrary hlast)
    rcases itemLetters_cases rest trail with ⟨rfl, htrail, _⟩ | ⟨k', hcons⟩
    · refine .endsLine _ item ?_ harbitrary htrail
      cases arguments with
      | nil => exact hform
      | cons argument others =>
        rw [hform, Form.chars, List.flatMap_cons, argument.chars_eq] at hend
        cases hend.1
    · rw [hcons] at hend
      cases hend.2
  · have hdash := hkept.no_dash hrun hdone hform harbitrary hlast
    exact .followArbitrary _ item rest arguments hform harbitrary hdash hlast
      ((piece_followArbitrary hform harbitrary hdash hlast).clean hdone hrun hkept ih)

theorem clean_of_kept (items : List Item) (n : Nat) :
    CleanFrom classify command n trail items s' := by
  -- an option may take the next one with it, so that the induction is on the number of options
  induction hlength : items.length using Nat.strong_induction_on generalizing items n with
  | _ length ih =>
    subst hlength
    rintro k done options rfl hdone hrun hkept
    cases items with
    | nil => exact .nil _
    | cons item rest =>
      have ih' : ∀ remaining : List Item, remaining.length ≤ rest.length →
          CleanFrom classify command (options.length + 1) trail remaining s' :=
        fun remaining hle => ih _ (Nat.lt_succ_of_le hle) remaining _ rfl
      have ihrest := ih' rest (Nat.le_refl _)
      cases hform : item.form with
      | quoted content inQuotes =>
        exact .quoted _ item rest content inQuotes hform
          ((piece_quoted hform).clean hdone hrun hkept ihrest)
      | plain arguments =>
        by_cases hone : classify options.length item.name.chars = otFollowOne
        · exact clean_followOne hform hone hdone hrun hkept ih'
        by_cases harbitrary : classify options.length item.name.chars = otFollowArbitrary
        · exact clean_followArbitrary hform harbitrary hdone hrun hkept ihrest
        · obtain rfl := hkept.no_arguments hrun hform hone harbitrary
          exact .single _ item rest hform hone harbitrary
            ((piece_single hform hone harbitrary).clean hdone hrun hkept ihrest)

end Kept

/-! ## The whole line -/

section Line

variable {classify : Nat → List UInt8 → Int8} {line : CommandLine} {k : Nat} {s' : State}

theorem CommandLine.text_eq (line : CommandLine) :
    line.text = blanks line.lead ++
      (line.command.chars ++ CmdUtils.text (itemLetters line.items line.trail)) := by
  rw [CommandLine.text, CommandLine.letters, text_append, text_unmarked, List.append_assoc]

/-- The command is the line, or it is cut at the blank behind it. -/
theorem Runs.reads_command (h : Runs classify (start line.toCString) s') :
    (line.items = [] ∧ line.trail = 0 ∧
      s' = cursor line.lead (blanks line.lead ++ line.command.chars) [] []) ∨
    ∃ k, itemLetters line.items line.trail = (blank, false) :: pending k line.items line.trail ∧
      Runs classify (cursor line.lead (blanks line.lead ++ (line.command.chars ++ [nul]))
        (text (pending k line.items line.trail)) []) s' := by
  have hstart : start line.toCString = ⟨blanks line.lead ++ (line.command.chars ++
      text (itemLetters line.items line.trail)) ++ [nul], 0, none, []⟩ := by
    rw [← CommandLine.text_eq]
    rfl
  obtain ⟨next, hnext, hleads⟩ := h.first
  rw [hstart, iteration_command line.command.nonempty line.command.inWord
    (endsWord_itemLetters _ _), readCommand] at hnext
  have hp : line.lead + line.command.chars.length =
      (blanks line.lead ++ line.command.chars).length := by
    rw [List.length_append, length_blanks]
  rcases itemLetters_cases line.items line.trail with ⟨hitems, htrail, hnil⟩ | ⟨k, hcons⟩
  · refine Or.inl ⟨hitems, htrail, ?_⟩
    have hbuf : blanks line.lead ++ (line.command.chars ++
        text (itemLetters line.items line.trail)) ++ [nul] =
        (blanks line.lead ++ line.command.chars) ++ nul :: [] := by
      rw [hnil, text_nil, List.append_nil]
    rw [load_eq hbuf hp, ok_bind, if_neg (by decide), if_pos rfl] at hnext
    cases hnext
    have hcursor : Runs classify (cursor line.lead (blanks line.lead ++ line.command.chars)
        (blanks 0) []) s' := by
      rw [cursor, ← hp]
      rw [hbuf] at hleads
      exact hleads
    obtain ⟨next, hnext, hend⟩ := hcursor.first
    rw [iteration_blanks] at hnext
    cases hnext
    exact hend.2.symm
  · refine Or.inr ⟨k, hcons, ?_⟩
    have hbuf : blanks line.lead ++ (line.command.chars ++
        text (itemLetters line.items line.trail)) ++ [nul] =
        (blanks line.lead ++ line.command.chars) ++ blank ::
          (text (pending k line.items line.trail) ++ [nul]) := by
      rw [hcons]
      simp
    simp only [load_eq hbuf hp, store_eq nul hbuf hp, ok_bind, if_true] at hnext
    cases hnext
    have hlength : (blanks line.lead ++ (line.command.chars ++ [nul])).length =
        line.lead + line.command.chars.length + 1 := by
      simp [Nat.add_assoc]
    have hparts : blanks line.lead ++ line.command.chars ++
        nul :: (text (pending k line.items line.trail) ++ [nul]) =
        blanks line.lead ++ (line.command.chars ++ [nul]) ++
          (text (pending k line.items line.trail) ++ [nul]) := by
      simp
    rw [cursor, hlength, ← hparts]
    exact hleads

theorem stringAt_command (line : CommandLine) (rest : List UInt8) :
    stringAt (blanks line.lead ++ (line.command.chars ++ nul :: rest)) line.lead =
      line.command.chars := by
  have hnul : nul ∉ line.command.chars := fun h => ne_nul_of_inWord (line.command.inWord _ h) rfl
  have hstring := stringAt_append (blanks line.lead) rest hnul
  rwa [length_blanks] at hstring

theorem lossless_command (hitems : line.items = []) (htrail : line.trail = 0) :
    Lossless line (cursor line.lead (blanks line.lead ++ line.command.chars) [] []) := by
  refine ⟨⟨line.lead, rfl, ?_⟩, fun start h => absurd h List.not_mem_nil⟩
  have hbuf : (cursor line.lead (blanks line.lead ++ line.command.chars) [] []).buf =
      blanks line.lead ++ (line.command.chars ++ nul :: []) := by
    simp [cursor]
  have hcovered : covered (cursor line.lead (blanks line.lead ++ line.command.chars) [] []).buf
      [line.lead] = solidFrom line.lead line.command.chars := by
    rw [covered, List.flatMap_singleton, hbuf, stringAt_command]
  rw [CommandLine.text_eq, hitems, htrail, solidFrom_append, solidFrom_blanks, length_blanks,
    Nat.zero_add, itemLetters_nil, text_unmarked, List.nil_append]
  exact hcovered.trans (by rw [blanks, List.replicate_zero, List.append_nil])

theorem letters_eq
    (hletters : itemLetters line.items line.trail =
      (blank, false) :: pending k line.items line.trail) :
    line.letters = unmarked (blanks line.lead ++ (line.command.chars ++ [blank])) ++
      pending k line.items line.trail := by
  rw [CommandLine.letters, hletters]
  simp

theorem Keeps.lossless
    (hletters : itemLetters line.items line.trail =
      (blank, false) :: pending k line.items line.trail)
    (hcommand : s'.command = some line.lead)
    (h : Keeps (blanks line.lead ++ (line.command.chars ++ [nul]))
      (pending k line.items line.trail) [] s') : Lossless line s' := by
  obtain ⟨behind, starts, hbuf, hoptions, hcovered, hnames⟩ := h
  rw [List.nil_append] at hoptions
  have hlength : (blanks line.lead ++ (line.command.chars ++ [nul])).length =
      line.lead + line.command.chars.length + 1 := by
    simp [Nat.add_assoc]
  refine ⟨⟨line.lead, hcommand, ?_⟩, ?_⟩
  · have hstring : stringAt s'.buf line.lead = line.command.chars := by
      rw [hbuf, List.append_assoc, List.append_assoc]
      exact stringAt_command line behind
    rw [covered, List.flatMap_cons, hstring, hoptions]
    show _ ++ covered s'.buf starts = _
    rw [hcovered, hlength, CommandLine.text_eq, hletters, text_cons, solidFrom_append,
      solidFrom_blanks, List.nil_append, solidFrom_append, solidFrom_blank_cons, length_blanks,
      Nat.zero_add]
  · intro start hstart
    obtain ⟨j, c, rfl, hletter⟩ := hnames start (hoptions ▸ hstart)
    refine ⟨c, ?_⟩
    rw [letters_eq hletters, List.getElem?_append_right (by simp), hlength]
    simp only [length_unmarked, List.length_append, length_blanks, List.length_singleton]
    rw [show line.lead + line.command.chars.length + 1 + j -
      (line.lead + (line.command.chars.length + 1)) = j by omega]
    exact hletter

/-- A character of a string that starts in the buffer is not overwritten. -/
theorem ne_nul_of_mem_covered {buf : List UInt8} {starts : List Nat} {c : UInt8} {j : Nat}
    (h : (c, j) ∈ covered buf starts) : buf[j]? ≠ some nul := by
  obtain ⟨start, _, hmem⟩ := List.mem_flatMap.mp h
  obtain ⟨hmem, _⟩ := List.mem_filter.mp hmem
  obtain ⟨hle, hget⟩ : start ≤ j ∧ (stringAt buf start)[j - start]? = some c :=
    List.mem_zipIdx_iff_le_and_getElem?_sub.mp hmem
  have hnul : c ≠ nul := by
    have hgo := List.mem_takeWhile_imp (List.mem_of_getElem? hget)
    exact bne_iff_ne.mp hgo
  have hbuf : buf[j]? = some c := by
    have hdrop : (buf.drop start)[j - start]? = some c := by
      obtain ⟨rest, hrest⟩ : stringAt buf start <+: buf.drop start := List.takeWhile_prefix _
      rw [← hrest, List.getElem?_append_left (List.getElem?_eq_some_iff.mp hget).1]
      exact hget
    rwa [List.getElem?_drop, Nat.add_sub_cancel' hle] at hdrop
  rw [hbuf]
  exact fun h => hnul (Option.some.inj h)

theorem Lossless.kept (h : Lossless line s') : Kept [] line.letters s' := by
  constructor
  · intro j c hletter hmem
    rw [List.length_nil, Nat.zero_add] at hmem
    obtain ⟨c', hname⟩ := h.names j hmem
    cases hletter.symm.trans hname
  · intro j c mark hletter hc
    obtain ⟨command, _, hcovered⟩ := h.complete
    rw [List.length_nil, Nat.zero_add]
    have hmem : (c, j) ∈ covered s'.buf (command :: s'.options) := by
      rw [hcovered, solidFrom, List.mem_filter, List.mem_zipIdx_iff_getElem?]
      refine ⟨?_, bne_iff_ne.mpr hc⟩
      rw [CommandLine.text, text, List.getElem?_map, hletter]
      rfl
    exact ne_nul_of_mem_covered hmem

end Line

/-- If the parse of a command line returns true, the command and the options are the line, in order
and without a loss, exactly if the options are cut where they end. -/
theorem lossless_iff (line : CommandLine) (classify : Nat → List UInt8 → Int8) (limit : Nat)
    (s : State) (h : parseCmdLine classify limit line.toCString = .ok ⟨true, s⟩) :
    Lossless line s ↔ Clean classify line.trail 0 line.items := by
  have hrun : Runs classify (start line.toCString) s := ⟨limit, h⟩
  have hcommand : ∀ rest, Runs classify (cursor line.lead (blanks line.lead ++
      (line.command.chars ++ [nul])) rest []) s → s.command = some line.lead :=
    fun rest hrun => hrun.grows.command line.lead rfl
  have hdone : 0 < (blanks line.lead ++ (line.command.chars ++ [nul])).length := by
    rw [List.length_append, List.length_append]
    exact Nat.add_pos_right _ (Nat.succ_pos _)
  rcases hrun.reads_command with ⟨hitems, htrail, rfl⟩ | ⟨k, hletters, hrun'⟩
  · rw [hitems]
    exact iff_of_true (lossless_command hitems htrail) (.nil 0)
  · constructor
    · intro hlossless
      have hkept := hlossless.kept
      rw [letters_eq hletters] at hkept
      exact clean_of_kept line.items 0 k _ [] rfl hdone hrun' (hkept.drop (by simp))
    · intro hclean
      exact (hclean.keeps k _ [] rfl hdone hrun').lossless hletters (hcommand _ hrun')

/-- Characters as a word. -/
def wordOf (chars : List UInt8) (hne : chars ≠ []) (h : chars.all inWord = true) : Word :=
  ⟨chars, hne, List.all_eq_true.mp h⟩

/-- A dash and characters as a name. -/
def nameOf (chars : List UInt8) (hne : chars ≠ []) (h : chars.all inWord = true)
    (hequals : equals ∉ chars) : OptionName :=
  ⟨chars, hne, List.all_eq_true.mp h, hequals⟩

/-- `cmd --M T -i f g -o="a b"`. -/
def plainLine : CommandLine where
  lead := 0
  command := wordOf [99, 109, 100] (by decide) rfl
  items := [
    ⟨0, nameOf [45, 77] (by decide) rfl (by decide),
      .plain [⟨0, wordOf [84] (by decide) rfl⟩]⟩,
    ⟨0, nameOf [105] (by decide) rfl (by decide),
      .plain [⟨0, wordOf [102] (by decide) rfl⟩, ⟨0, wordOf [103] (by decide) rfl⟩]⟩,
    ⟨0, nameOf [111] (by decide) rfl (by decide),
      .quoted [97, 32, 98] (List.all_eq_true.mp rfl)⟩]
  trail := 0

/-- One argument behind `--M`, any number behind the other names. -/
def modeOrFiles (_ : Nat) (name : List UInt8) : Int8 :=
  if name = [45, 45, 77] then otFollowOne else otFollowArbitrary

theorem lossless_plainLine :
    Lossless plainLine ⟨[99, 109, 100, 0, 45, 45, 77, 32, 84, 0, 45, 105, 32, 102, 32, 103, 0,
      45, 111, 61, 34, 97, 32, 98, 34, 0], 17, some 0, [4, 10, 17]⟩ := by
  refine (lossless_iff plainLine modeOrFiles 5 _ (by decide +kernel)).mpr ?_
  refine .followOne _ _ _ _ rfl (by decide) ?_
  refine .followArbitrary _ _ _ _ rfl (by decide) (by decide) (by decide) ?_
  exact .quoted _ _ _ _ (List.all_eq_true.mp rfl) rfl (.nil _)

/-- `cmd -i a-b`. -/
def dashLine : CommandLine where
  lead := 0
  command := wordOf [99, 109, 100] (by decide) rfl
  items := [⟨0, nameOf [105] (by decide) rfl (by decide),
    .plain [⟨0, wordOf [97, 45, 98] (by decide) rfl⟩]⟩]
  trail := 0

/-- The `a` is overwritten, and `-b` is taken for an option. -/
theorem dashLine_lost :
    ∃ s, parseCmdLine (fun _ _ => otFollowArbitrary) 4 dashLine.toCString = .ok ⟨true, s⟩ ∧
      s.buf = [99, 109, 100, 0, 45, 105, 32, 0, 45, 98, 0] ∧ s.options = [4, 8] ∧
      ¬ Lossless dashLine s := by
  refine ⟨⟨[99, 109, 100, 0, 45, 105, 32, 0, 45, 98, 0], 8, some 0, [4, 8]⟩, by decide +kernel,
    rfl, rfl, ?_⟩
  intro hlossless
  obtain ⟨c, hname⟩ := hlossless.names 8 (by decide)
  have hletter : dashLine.letters[8]? = some (45, false) := rfl
  cases hletter.symm.trans hname

end HakunaMatata.CmdUtils
