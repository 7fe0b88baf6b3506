import Mathlib.Data.List.TakeWhile
import HakunaMatata.CmdUtils.CommandLine
import HakunaMatata.CmdUtils.Cuts

/-!
# The pieces that a command line is cut into

While a line is parsed the letters that are still to be read are those of `pending`: some blanks, an
option and the options behind it. A `Piece` is what the next iteration takes from them when it ends
at a blank or with the line, so that the options that remain are whole. There is one lemma for each
way in which an option can be such a piece, from the length that `parseOption` gives it.
-/

namespace HakunaMatata.CmdUtils

open Base

/-! ## The letters that are still to be read -/

def pending (k : Nat) (items : List Item) (trail : Nat) : List Letter :=
  match items with
  | [] => unmarked (blanks k)
  | item :: rest => unmarked (blanks k) ++ (item.body ++ itemLetters rest trail)

section Letters

@[simp] theorem text_nil : text [] = [] :=
  rfl

@[simp] theorem text_cons (letter : Letter) (letters : List Letter) :
    text (letter :: letters) = letter.1 :: text letters :=
  rfl

@[simp] theorem text_append (letters letters' : List Letter) :
    text (letters ++ letters') = text letters ++ text letters' :=
  List.map_append

@[simp] theorem text_unmarked (chars : List UInt8) : text (unmarked chars) = chars := by
  rw [text, unmarked, List.map_map]
  exact List.map_id chars

@[simp] theorem length_unmarked (chars : List UInt8) : (unmarked chars).length = chars.length :=
  List.length_map _

@[simp] theorem unmarked_append (chars chars' : List UInt8) :
    unmarked (chars ++ chars') = unmarked chars ++ unmarked chars' :=
  List.map_append

@[simp] theorem unmarked_nil : unmarked [] = [] :=
  rfl

@[simp] theorem unmarked_cons (c : UInt8) (chars : List UInt8) :
    unmarked (c :: chars) = (c, false) :: unmarked chars :=
  rfl

@[simp] theorem length_blanks (n : Nat) : (blanks n).length = n :=
  List.length_replicate

theorem blanks_succ (n : Nat) : blanks (n + 1) = blank :: blanks n :=
  rfl

theorem blanks_succ' (n : Nat) : blanks (n + 1) = blanks n ++ [blank] :=
  List.replicate_succ'

@[simp] theorem length_text (letters : List Letter) : (text letters).length = letters.length :=
  List.length_map _

/-- The letters of a name. -/
def OptionName.letters (name : OptionName) : List Letter :=
  (dash, true) :: unmarked name.rest

@[simp] theorem text_name (name : OptionName) : text name.letters = name.chars := by
  simp [OptionName.letters, OptionName.chars]

theorem body_eq (item : Item) : item.body = item.name.letters ++ unmarked item.form.chars := by
  simp [Item.body, OptionName.letters]

@[simp] theorem text_body (item : Item) : text item.body = item.name.chars ++ item.form.chars := by
  rw [body_eq, text_append, text_name, text_unmarked]

theorem itemLetters_nil (trail : Nat) : itemLetters [] trail = unmarked (blanks trail) :=
  rfl

theorem itemLetters_cons (item : Item) (rest : List Item) (trail : Nat) :
    itemLetters (item :: rest) trail =
      unmarked (blanks (item.gap + 1)) ++ (item.body ++ itemLetters rest trail) := by
  simp [itemLetters]

/-- Nothing follows an option, or a blank and what is still to be read behind it. -/
theorem itemLetters_cases (items : List Item) (trail : Nat) :
    (items = [] ∧ trail = 0 ∧ itemLetters items trail = []) ∨
      ∃ k, itemLetters items trail = (blank, false) :: pending k items trail := by
  cases items with
  | nil =>
    cases trail with
    | zero => exact Or.inl ⟨rfl, rfl, rfl⟩
    | succ trail => exact Or.inr ⟨trail, rfl⟩
  | cons item rest =>
    refine Or.inr ⟨item.gap, ?_⟩
    rw [itemLetters_cons, blanks_succ]
    rfl

theorem endsWord_itemLetters (items : List Item) (trail : Nat) :
    EndsWord (text (itemLetters items trail)) := by
  rcases itemLetters_cases items trail with ⟨_, _, hnil⟩ | ⟨k, hcons⟩
  · rw [hnil]
    exact Or.inl rfl
  · rw [hcons]
    exact Or.inr ⟨_, rfl⟩

theorem endsWord_append {chars rest : List UInt8} (h : EndsWord chars) (hrest : EndsWord rest) :
    EndsWord (chars ++ rest) := by
  rcases h with rfl | ⟨chars', rfl⟩
  · exact hrest
  · exact Or.inr ⟨chars' ++ rest, rfl⟩

theorem endsWord_arguments (arguments : List Argument) :
    EndsWord (arguments.flatMap Argument.chars) := by
  cases arguments with
  | nil => exact Or.inl rfl
  | cons argument arguments => exact Or.inr ⟨_, rfl⟩

/-! ## No NUL in the line -/

theorem ne_nul_of_inWord {c : UInt8} (h : inWord c = true) : c ≠ nul := by
  rintro rfl
  exact absurd h (by decide)

theorem inWord_of_ne {c : UInt8} (hnul : c ≠ nul) (hblank : c ≠ blank) : inWord c = true := by
  unfold inWord
  simp [hnul, hblank]

theorem nul_not_mem_blanks (n : Nat) : nul ∉ blanks n := by
  intro h
  exact absurd (List.eq_of_mem_replicate h) (by decide)

theorem OptionName.inWord_chars (name : OptionName) :
    ∀ c ∈ name.chars, CmdUtils.inWord c = true := by
  intro c hc
  rcases List.mem_cons.mp hc with rfl | hrest
  · decide
  · exact name.inWord c hrest

theorem nul_not_mem_form (form : Form) : nul ∉ form.chars := by
  cases form with
  | quoted content hcontent =>
    intro h
    simp only [Form.chars, List.mem_cons, List.mem_append, List.not_mem_nil, or_false] at h
    rcases h with h | h | h | h
    · exact absurd h (by decide)
    · exact absurd h (by decide)
    · exact absurd (hcontent nul h) (by decide)
    · exact absurd h (by decide)
  | plain arguments =>
    intro h
    obtain ⟨argument, _, h⟩ := List.mem_flatMap.mp h
    rcases List.mem_append.mp h with h | h
    · exact nul_not_mem_blanks _ h
    · exact ne_nul_of_inWord (argument.word.inWord nul h) rfl

theorem nul_not_mem_body (item : Item) : nul ∉ text item.body := by
  rw [text_body, List.mem_append]
  rintro (h | h)
  · exact ne_nul_of_inWord (item.name.inWord_chars nul h) rfl
  · exact nul_not_mem_form _ h

theorem nul_not_mem_itemLetters (items : List Item) (trail : Nat) :
    nul ∉ text (itemLetters items trail) := by
  induction items with
  | nil =>
    rw [itemLetters_nil, text_unmarked]
    exact nul_not_mem_blanks trail
  | cons item rest ih =>
    rw [itemLetters_cons, text_append, text_append, text_unmarked, List.mem_append,
      List.mem_append]
    rintro (h | h | h)
    · exact nul_not_mem_blanks _ h
    · exact nul_not_mem_body item h
    · exact ih h

theorem nul_not_mem_pending (k : Nat) (items : List Item) (trail : Nat) :
    nul ∉ text (pending k items trail) := by
  cases items with
  | nil =>
    rw [pending, text_unmarked]
    exact nul_not_mem_blanks k
  | cons item rest =>
    rw [pending, text_append, text_append, text_unmarked, List.mem_append, List.mem_append]
    rintro (h | h | h)
    · exact nul_not_mem_blanks k h
    · exact nul_not_mem_body item h
    · exact nul_not_mem_itemLetters rest trail h

/-- The text of a command line, as a string. -/
def CommandLine.toCString (line : CommandLine) : CString where
  chars := line.text
  no_nul := by
    show nul ∉ CmdUtils.text line.letters
    rw [CommandLine.letters, text_append, text_unmarked, List.mem_append, List.mem_append]
    rintro ((h | h) | h)
    · exact nul_not_mem_blanks _ h
    · exact ne_nul_of_inWord (line.command.inWord nul h) rfl
    · exact nul_not_mem_itemLetters _ _ h

end Letters

/-! ## The length of an option -/

section Ends

variable {classify : Nat → List UInt8 → Int8} {n k : Nat} {done rest : List UInt8}
  {name : OptionName}

theorem OptionName.equals_not_mem (name : OptionName) : equals ∉ name.chars := by
  intro h
  rcases List.mem_cons.mp h with h | h
  · exact absurd h (by decide)
  · exact name.no_equals h

theorem parseOption_name :
    parseOption (classify n) (done ++ (blanks k ++ (name.chars ++ rest) ++ [nul]))
        (done.length + k) (done.length + k + name.chars.length - 1) =
      followOption (done ++ (blanks k ++ (name.chars ++ rest) ++ [nul])) (classify n name.chars)
        (done.length + k + name.chars.length - 1) := by
  have hpos : 0 < name.chars.length := Nat.succ_pos _
  exact parseOption_plain (done ++ blanks k) name.chars (rest ++ [nul]) (by simp) (by simp)
    (by omega) (List.cons_ne_nil _ _) name.equals_not_mem

theorem endsAfter_single (hone : classify n name.chars ≠ otFollowOne)
    (harbitrary : classify n name.chars ≠ otFollowArbitrary) :
    EndsAfter classify n done k name.chars rest name.chars.length := by
  intro pEnd h
  have hpos : 0 < name.chars.length := Nat.succ_pos _
  rw [parseOption_name] at h
  by_cases hnull : classify n name.chars = otNull
  · rw [followOption, if_pos hnull] at h
    cases h
  · rw [followOption_single hnull hone harbitrary] at h
    cases h
    omega

/-- An option that is followed by one argument ends with the next word, or with the line. -/
theorem endsAfter_one {g : Nat} {word rest' : List UInt8}
    (hone : classify n name.chars = otFollowOne) (hrest : rest = blanks g ++ (word ++ rest'))
    (hword : ∀ c ∈ word, inWord c = true) (hends : EndsWord rest')
    (hempty : word = [] → rest' = []) :
    EndsAfter classify n done k name.chars rest (name.chars.length + g + word.length) := by
  intro pEnd h
  have hpos : 0 < name.chars.length := Nat.succ_pos _
  obtain ⟨c, tail, htail, hc, hnul⟩ := hends.stop
  have hbuf : done ++ (blanks k ++ (name.chars ++ rest) ++ [nul]) =
      (done ++ (blanks k ++ name.chars)) ++ (blanks g ++ (word ++ c :: tail)) := by
    rw [hrest, ← htail]
    simp
  rw [parseOption_name, hone, followOption_one _ word tail hbuf (by simp; omega) hword hc
    (fun h => hnul.mpr (hempty h))] at h
  cases h
  omega

theorem exists_last (name : OptionName) :
    ∃ init last, name.chars = init ++ [last] ∧ name.rest.getLast? = some last := by
  refine ⟨dash :: name.rest.dropLast, name.rest.getLast name.nonempty, ?_,
    List.getLast?_eq_some_getLast name.nonempty⟩
  rw [List.cons_append, List.dropLast_concat_getLast]
  rfl

/-- An option with arbitrary arguments ends before the blank in front of the next dash, or with the
line. -/
theorem endsAfter_arbitrary {front tail : List UInt8} {c : UInt8}
    (harbitrary : classify n name.chars = otFollowArbitrary)
    (hlast : name.rest.getLast? ≠ some dash) (hrest : rest ++ [nul] = front ++ c :: tail)
    (hfront : ∀ c ∈ front, inArguments c = true) (hc : inArguments c = false)
    (hdone : 0 < done.length) :
    EndsAfter classify n done k name.chars rest
      (name.chars.length + front.length - if c = dash then 1 else 0) := by
  intro pEnd h
  obtain ⟨init, last, hchars, hlast'⟩ := exists_last name
  have hlength : name.chars.length = init.length + 1 := by
    rw [hchars, List.length_append, List.length_singleton]
  have hargument : inArguments last = true := by
    have hword := name.inWord_chars last (hchars ▸ List.mem_append_right _ List.mem_cons_self)
    have hne : last ≠ dash := fun heq => hlast (heq ▸ hlast')
    unfold inWord at hword
    unfold inArguments
    simp_all
  have hbuf : done ++ (blanks k ++ (name.chars ++ rest) ++ [nul]) =
      (done ++ (blanks k ++ init)) ++ (last :: front ++ c :: tail) := by
    rw [List.cons_append, ← hrest, hchars]
    simp
  rw [parseOption_name, harbitrary, followOption_arbitrary _ (last :: front) tail hbuf
    (by simp; omega) (by simpa [hargument] using hfront) hc (by simp; omega)] at h
  cases h
  rw [List.length_cons]
  split_ifs <;> omega

theorem endsAfter_dash (harbitrary : classify n name.chars = otFollowArbitrary)
    (hlast : name.rest.getLast? = some dash) (hdone : 0 < done.length) :
    EndsAfter classify n done k name.chars rest (name.chars.length - 2) := by
  intro pEnd h
  obtain ⟨init, last, hchars, hlast'⟩ := exists_last name
  obtain rfl : last = dash := Option.some.inj (hlast'.symm.trans hlast)
  have hlength : name.chars.length = init.length + 1 := by
    rw [hchars, List.length_append, List.length_singleton]
  have hlong : 2 ≤ name.chars.length := by
    have hpos := List.length_pos_of_ne_nil name.nonempty
    rw [OptionName.chars, List.length_cons]
    omega
  have hbuf : done ++ (blanks k ++ (name.chars ++ rest) ++ [nul]) =
      (done ++ (blanks k ++ init)) ++ ([] ++ dash :: (rest ++ [nul])) := by
    rw [hchars]
    simp
  rw [parseOption_name, harbitrary, followOption_arbitrary _ [] (rest ++ [nul]) hbuf
    (by simp; omega) (by simp) (by decide) (by simp; omega)] at h
  cases h
  rw [List.length_nil, if_pos rfl]
  omega

theorem endsAfter_quoted {word content tail : List UInt8}
    (hsplit : word ++ rest = name.chars ++ equals :: quote :: (content ++ quote :: tail))
    (hword : name.chars.length + 1 < word.length) (hcontent : ∀ c ∈ content, inQuotes c = true) :
    EndsAfter classify n done k word rest (name.chars.length + 3 + content.length) := by
  intro pEnd h
  have hbuf : done ++ (blanks k ++ (word ++ rest) ++ [nul]) =
      (done ++ blanks k) ++ (name.chars ++ equals :: quote ::
        (content ++ quote :: (tail ++ [nul]))) := by
    rw [hsplit]
    simp
  rw [parseOption_quoted _ name.chars content _ hbuf (by simp) (by omega)
    (List.cons_ne_nil _ _) name.equals_not_mem hcontent] at h
  cases h
  omega

end Ends

/-! ## What an iteration takes -/

section Cut

variable {classify : Nat → List UInt8 → Int8} {command k : Nat} {done word after : List UInt8}
  {options : List Nat} {s' : State}

theorem Runs.cut {front letters : List Letter} {letter : Letter}
    (h : Runs classify (cursor command done
      (text (unmarked (blanks k) ++ (front ++ letter :: letters))) options) s')
    (htext : text (front ++ letter :: letters) = word ++ after) (hne : word ≠ [])
    (hword : ∀ c ∈ word, inWord c = true) (hafter : EndsWord after) (hmore : after ≠ [])
    (hletter : letter.1 ≠ nul)
    (hends : EndsAfter classify options.length done k word after front.length) :
    Runs classify (cursor command (done ++ (blanks k ++ (text front ++ [nul]))) (text letters)
      (options ++ [done.length + k])) s' := by
  rcases hafter with hnil | ⟨rest, rfl⟩
  · exact absurd hnil hmore
  · rw [text_append, text_unmarked, htext] at h
    rw [text_append, text_cons] at htext
    exact (h.word_cut hne hword hends).2 _ _ _ htext.symm hletter (length_text front).symm

theorem Runs.finish {front : List Letter}
    (h : Runs classify (cursor command done (text (unmarked (blanks k) ++ front)) options) s')
    (htext : text front = word ++ after) (hne : word ≠ [])
    (hword : ∀ c ∈ word, inWord c = true) (hafter : EndsWord after)
    (hends : after ≠ [] → EndsAfter classify options.length done k word after front.length) :
    s' = cursor command done (blanks k ++ text front) (options ++ [done.length + k]) := by
  rw [text_append, text_unmarked, htext] at h
  rw [htext]
  rcases hafter with rfl | ⟨rest, rfl⟩
  · rw [List.append_nil] at h ⊢
    exact h.last_word hne hword
  · refine (h.word_cut hne hword (hends (List.cons_ne_nil _ _))).1 ?_
    rw [← htext, length_text]

end Cut

section Piece

variable {classify : Nat → List UInt8 → Int8} {n k trail : Nat}

/-- The next iteration reads `front`, which starts with the word, and leaves the remaining
options. -/
structure IsPiece (classify : Nat → List UInt8 → Int8) (n k trail : Nat)
    (items remaining : List Item) (front tail : List Letter) (word after : List UInt8) : Prop where
  split : pending k items trail = unmarked (blanks k) ++ (front ++ tail)
  starts : front[0]? = some (dash, true)
  chars : text front = word ++ after
  nonempty : word ≠ []
  inWord : ∀ c ∈ word, inWord c = true
  endsWord : EndsWord (after ++ text tail)
  remains : (tail = [] ∧ remaining = []) ∨
    ∃ k', tail = (blank, false) :: pending k' remaining trail
  ends : after ++ text tail ≠ [] → ∀ done : List UInt8, 0 < done.length →
    EndsAfter classify n done k word (after ++ text tail) front.length

/-- The next iteration reads a piece of the line and leaves the remaining options. -/
def Piece (classify : Nat → List UInt8 → Int8) (n trail : Nat) (items remaining : List Item) :
    Prop :=
  ∀ k, ∃ front tail word after, IsPiece classify n k trail items remaining front tail word after

/-- What follows an option is cut at a blank, or nothing follows. -/
theorem remains_itemLetters (items : List Item) (trail : Nat) :
    (itemLetters items trail = [] ∧ items = []) ∨
      ∃ k, itemLetters items trail = (blank, false) :: pending k items trail := by
  rcases itemLetters_cases items trail with ⟨hitems, _, hnil⟩ | hcons
  · exact Or.inl ⟨hnil, hitems⟩
  · exact Or.inr hcons

theorem OptionName.chars_ne_nil (name : OptionName) : name.chars ≠ [] :=
  List.cons_ne_nil _ _

variable {item next : Item} {rest : List Item}

theorem isPiece_name (front tail : List Letter) {remaining : List Item}
    (hsplit : item.body ++ itemLetters rest trail = item.name.letters ++ front ++ tail)
    (hends : EndsWord (text front ++ text tail))
    (hremains : (tail = [] ∧ remaining = []) ∨
      ∃ k', tail = (blank, false) :: pending k' remaining trail)
    (hlength : text front ++ text tail ≠ [] → ∀ done : List UInt8, 0 < done.length →
      EndsAfter classify n done k item.name.chars (text front ++ text tail)
        (item.name.chars.length + front.length)) :
    IsPiece classify n k trail (item :: rest) remaining (item.name.letters ++ front) tail
      item.name.chars (text front) where
  split := congrArg (unmarked (blanks k) ++ ·) hsplit
  starts := rfl
  chars := by rw [text_append, text_name]
  nonempty := item.name.chars_ne_nil
  inWord := item.name.inWord_chars
  endsWord := hends
  remains := hremains
  ends := by
    rw [List.length_append, ← length_text item.name.letters, text_name]
    exact hlength

theorem piece_single (hform : item.form = .plain [])
    (hone : classify n item.name.chars ≠ otFollowOne)
    (harbitrary : classify n item.name.chars ≠ otFollowArbitrary) :
    Piece classify n trail (item :: rest) rest := by
  intro k
  refine ⟨_, _, _, _, isPiece_name [] (itemLetters rest trail) ?_ ?_ ?_ ?_⟩
  · rw [body_eq, hform]
    rfl
  · exact endsWord_itemLetters rest trail
  · exact remains_itemLetters rest trail
  · exact fun _ done _ => endsAfter_single hone harbitrary

theorem piece_followOne {argument : Argument} (hform : item.form = .plain [argument])
    (hone : classify n item.name.chars = otFollowOne) :
    Piece classify n trail (item :: rest) rest := by
  intro k
  refine ⟨_, _, _, _, isPiece_name (unmarked argument.chars) (itemLetters rest trail) ?_ ?_ ?_ ?_⟩
  · rw [body_eq, hform, Form.chars, List.flatMap_singleton]
  · exact Or.inr ⟨_, rfl⟩
  · exact remains_itemLetters rest trail
  · intro _ done _
    rw [text_unmarked, length_unmarked, Argument.chars, List.length_append, length_blanks,
      ← Nat.add_assoc, List.append_assoc]
    exact endsAfter_one hone rfl argument.word.inWord (endsWord_itemLetters rest trail)
      fun h => absurd h argument.word.nonempty

theorem piece_takesNext (hform : item.form = .plain [])
    (hone : classify n item.name.chars = otFollowOne) (hnext : next.OneWord) :
    Piece classify n trail (item :: next :: rest) rest := by
  intro k
  have hword : ∀ c ∈ text next.body, inWord c = true := by
    intro c hc
    rw [text_body, List.mem_append] at hc
    rcases hc with hname | hchars
    · exact next.name.inWord_chars c hname
    · refine inWord_of_ne ?_ ?_
      · rintro rfl
        exact nul_not_mem_form _ hchars
      · rintro rfl
        exact hnext hchars
  refine ⟨_, _, _, _, isPiece_name (unmarked (blanks (next.gap + 1)) ++ next.body)
    (itemLetters rest trail) ?_ ?_ ?_ ?_⟩
  · rw [body_eq, hform, itemLetters_cons]
    simp [Form.chars]
  · exact Or.inr ⟨_, rfl⟩
  · exact remains_itemLetters rest trail
  · intro _ done _
    rw [text_append, text_unmarked, List.append_assoc, List.length_append, length_unmarked,
      length_blanks, ← length_text next.body, ← Nat.add_assoc]
    exact endsAfter_one hone rfl hword (endsWord_itemLetters rest trail)
      fun h => absurd h (List.cons_ne_nil _ _)

theorem piece_missesLast (hform : item.form = .plain [])
    (hone : classify n item.name.chars = otFollowOne) : Piece classify n trail [item] [] := by
  intro k
  refine ⟨_, _, _, _, isPiece_name (unmarked (blanks trail)) [] ?_ ?_ (Or.inl ⟨rfl, rfl⟩) ?_⟩
  · rw [body_eq, hform, itemLetters_nil]
    simp [Form.chars]
  · rw [text_nil, List.append_nil]
    exact endsWord_itemLetters [] trail
  · intro _ done _
    have hnone : ∀ c ∈ ([] : List UInt8), inWord c = true := fun c h => absurd h List.not_mem_nil
    have hrest : blanks trail ++ ([] : List UInt8) = blanks trail ++ ([] ++ []) := rfl
    have hends : EndsAfter classify n done k item.name.chars (blanks trail ++ [])
        (item.name.chars.length + trail + ([] : List UInt8).length) :=
      endsAfter_one hone hrest hnone (Or.inl rfl) fun _ => rfl
    rw [text_unmarked, text_nil, length_unmarked, length_blanks]
    rwa [List.length_nil, Nat.add_zero] at hends

theorem inArguments_of_not_mem {chars : List UInt8} (hnul : nul ∉ chars) (hdash : dash ∉ chars) :
    ∀ c ∈ chars, inArguments c = true := by
  intro c hc
  have hne : c ≠ nul := fun h => hnul (h ▸ hc)
  have hne' : c ≠ dash := fun h => hdash (h ▸ hc)
  unfold inArguments
  simp [hne, hne']

theorem inArguments_blanks {chars : List UInt8} (hnul : nul ∉ chars) (hdash : dash ∉ chars)
    (m : Nat) : ∀ c ∈ chars ++ blanks m, inArguments c = true := by
  refine inArguments_of_not_mem ?_ ?_
  · rw [List.mem_append]
    exact fun h => h.elim hnul (nul_not_mem_blanks m)
  · rw [List.mem_append]
    exact fun h => h.elim hdash fun h => absurd (List.eq_of_mem_replicate h) (by decide)

theorem endsWord_plain {arguments : List Argument} (hform : item.form = .plain arguments)
    (m : Nat) : EndsWord (item.form.chars ++ blanks m) := by
  rw [hform]
  refine endsWord_append (endsWord_arguments arguments) ?_
  rw [← text_unmarked (blanks m)]
  exact endsWord_itemLetters [] m

theorem piece_followArbitrary {arguments : List Argument} (hform : item.form = .plain arguments)
    (harbitrary : classify n item.name.chars = otFollowArbitrary)
    (hdash : dash ∉ item.form.chars) (hlast : item.name.rest.getLast? ≠ some dash) :
    Piece classify n trail (item :: rest) rest := by
  intro k
  cases rest with
  | nil =>
    refine ⟨_, _, _, _, isPiece_name (unmarked (item.form.chars ++ blanks trail)) [] ?_ ?_
      (Or.inl ⟨rfl, rfl⟩) ?_⟩
    · rw [body_eq, itemLetters_nil]
      simp
    · rw [text_unmarked, text_nil, List.append_nil]
      exact endsWord_plain hform trail
    · intro _ done hdone
      have hends := endsAfter_arbitrary (k := k) harbitrary hlast rfl
        (inArguments_blanks (nul_not_mem_form _) hdash trail) (c := nul) (by decide) hdone
      rw [if_neg (by decide), Nat.sub_zero] at hends
      rw [text_unmarked, text_nil, List.append_nil, length_unmarked]
      exact hends
  | cons next rest =>
    refine ⟨_, _, _, _, isPiece_name (unmarked (item.form.chars ++ blanks next.gap))
      ((blank, false) :: pending 0 (next :: rest) trail) ?_ ?_ (Or.inr ⟨0, rfl⟩) ?_⟩
    · rw [body_eq, itemLetters_cons, blanks_succ']
      simp [pending, blanks]
    · rw [text_unmarked, text_cons]
      exact endsWord_append (endsWord_plain hform next.gap) (Or.inr ⟨_, rfl⟩)
    · intro _ done hdone
      have hsplit : text (unmarked (item.form.chars ++ blanks next.gap)) ++
          text ((blank, false) :: pending 0 (next :: rest) trail) ++ [nul] =
          (item.form.chars ++ blanks (next.gap + 1)) ++ dash ::
            (next.name.rest ++ next.form.chars ++ text (itemLetters rest trail) ++ [nul]) := by
        rw [blanks_succ']
        simp [pending, blanks, OptionName.chars]
      have hends := endsAfter_arbitrary (k := k) harbitrary hlast hsplit
        (inArguments_blanks (nul_not_mem_form _) hdash _) (by decide) hdone
      rw [if_pos rfl, List.length_append, length_blanks] at hends
      rw [length_unmarked, List.length_append, length_blanks]
      exact hends

theorem piece_endsLine (hform : item.form = .plain []) : Piece classify n 0 [item] [] := by
  intro k
  refine ⟨_, _, _, _, isPiece_name [] [] ?_ (Or.inl rfl) (Or.inl ⟨rfl, rfl⟩) fun h => absurd rfl h⟩
  rw [body_eq, hform]
  rfl

/-- The word at the start of characters that contain no NUL. -/
theorem endsWord_dropWhile {chars : List UInt8} (hnul : nul ∉ chars) :
    EndsWord (chars.dropWhile inWord) := by
  cases hdrop : chars.dropWhile inWord with
  | nil => exact Or.inl rfl
  | cons c rest =>
    have hmem : c ∈ chars :=
      (List.dropWhile_suffix inWord).subset (hdrop ▸ List.mem_cons_self)
    have hnot : inWord c = false := by
      have hhead := List.head_dropWhile_not inWord (hdrop ▸ List.cons_ne_nil c rest)
      simpa only [hdrop, List.head_cons] using hhead
    have hblank : c = blank := by
      by_contra hne
      rw [inWord_of_ne (fun h => hnul (h ▸ hmem)) hne] at hnot
      cases hnot
    exact Or.inr ⟨rest, by rw [hblank]⟩

theorem piece_quoted {content : List UInt8} {hcontent : ∀ c ∈ content, inQuotes c = true}
    (hform : item.form = .quoted content hcontent) :
    Piece classify n trail (item :: rest) rest := by
  intro k
  -- the word may end inside the quoted text
  set closing := content ++ [quote] with hclosing
  have htext : text item.body = (item.name.chars ++ equals :: quote :: closing.takeWhile inWord) ++
      closing.dropWhile inWord := by
    rw [text_body, hform, Form.chars, List.append_assoc, List.cons_append, List.cons_append,
      List.takeWhile_append_dropWhile]
  have hnul : nul ∉ closing := by
    have hform' := nul_not_mem_form item.form
    rw [hform, Form.chars] at hform'
    exact fun h => hform' (List.mem_cons_of_mem _ (List.mem_cons_of_mem _ h))
  refine ⟨item.body, itemLetters rest trail, _, _, rfl, rfl, htext, ?_, ?_, ?_,
    remains_itemLetters rest trail, ?_⟩
  · exact List.append_ne_nil_of_left_ne_nil item.name.chars_ne_nil _
  · intro c hc
    rw [List.mem_append, List.mem_cons, List.mem_cons] at hc
    rcases hc with hname | rfl | rfl | hrest
    · exact item.name.inWord_chars c hname
    · decide
    · decide
    · exact List.mem_takeWhile_imp hrest
  · exact endsWord_append (endsWord_dropWhile hnul) (endsWord_itemLetters rest trail)
  · intro _ done _
    have hsplit : (item.name.chars ++ equals :: quote :: closing.takeWhile inWord) ++
        (closing.dropWhile inWord ++ text (itemLetters rest trail)) = item.name.chars ++
          equals :: quote :: (content ++ quote :: text (itemLetters rest trail)) := by
      rw [← List.append_assoc, ← htext, text_body, hform, Form.chars]
      simp
    have hlength : item.body.length = item.name.chars.length + 3 + content.length := by
      rw [← length_text, text_body, hform, Form.chars]
      simp
      omega
    rw [hlength]
    exact endsAfter_quoted hsplit (by simp) hcontent

end Piece

end HakunaMatata.CmdUtils
