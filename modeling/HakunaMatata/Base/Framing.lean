import Mathlib.Data.List.Basic

/-!
# Cutting a stream into frames

A framer looks at the front of the received data and says whether to wait for more, to
reject the stream, or to take a frame. `Drains verdict xs frames ok rest` says that taking frames
from `xs` until the framer waits or rejects yields `frames` and leaves `rest`. A framer is
`Stable` when later data does not change a verdict. Read `Drains.split` first: for a stable
framer the data may be drained in pieces, which is why a receiver does not depend on how a
stream is cut into chunks.
-/

namespace HakunaMatata.Base

/-- What to do with the data received so far. -/
inductive Verdict where
  | wait
  | reject
  | take (count : Nat)
  deriving DecidableEq, Repr

variable {α : Type*}

/-- A verdict other than waiting stays when more data arrives. -/
def Stable (verdict : List α → Verdict) : Prop :=
  ∀ xs ys, verdict xs ≠ .wait → verdict (xs ++ ys) = verdict xs

/-- A frame that is taken has been received. -/
def Bounded (verdict : List α → Verdict) : Prop :=
  ∀ xs count, verdict xs = .take count → count ≤ xs.length

/-- Taking frames from the data until the framer waits (`true`) or rejects (`false`). -/
inductive Drains (verdict : List α → Verdict) : List α → List (List α) → Bool → List α → Prop where
  | wait {xs : List α} : verdict xs = .wait → Drains verdict xs [] true xs
  | reject {xs : List α} : verdict xs = .reject → Drains verdict xs [] false xs
  | take {xs : List α} {count : Nat} {frames : List (List α)} {ok : Bool} {rest : List α} :
      verdict xs = .take count → Drains verdict (xs.drop count) frames ok rest →
        Drains verdict xs (xs.take count :: frames) ok rest

variable {verdict : List α → Verdict} {xs ys rest : List α} {frames : List (List α)} {ok : Bool}

/-- What draining leaves behind is waiting for more data, unless the framer rejected. -/
theorem Drains.waits (h : Drains verdict xs frames true rest) : verdict rest = .wait := by
  generalize hok : true = ok at h
  induction h with
  | wait hwait => exact hwait
  | reject _ => cases hok
  | take _ _ ih => exact ih hok

theorem Drains.of_waiting (h : Drains verdict xs frames ok rest) (hwait : verdict xs = .wait) :
    frames = [] ∧ ok = true ∧ rest = xs := by
  cases h with
  | wait _ => exact ⟨rfl, rfl, rfl⟩
  | reject hreject => rw [hwait] at hreject; cases hreject
  | take htake _ => rw [hwait] at htake; cases htake

/-- Data may be drained in two pieces: the first piece is drained alone, and what it leaves is
drained with the second piece, unless the framer has rejected already. -/
theorem Drains.split (hstable : Stable verdict) (hbounded : Bounded verdict)
    (h : Drains verdict (xs ++ ys) frames ok rest) :
    (∃ first second middle, frames = first ++ second ∧ Drains verdict xs first true middle ∧
      Drains verdict (middle ++ ys) second ok rest) ∨
    (ok = false ∧ ∃ middle, Drains verdict xs frames false middle) := by
  generalize hzs : xs ++ ys = zs at h
  induction h generalizing xs with
  | wait hwait =>
    subst hzs
    have hxs : verdict xs = .wait := by
      by_contra hne
      exact hne (hstable xs ys hne ▸ hwait)
    exact Or.inl ⟨[], [], xs, rfl, .wait hxs, .wait hwait⟩
  | reject hreject =>
    subst hzs
    by_cases hxs : verdict xs = .wait
    · exact Or.inl ⟨[], [], xs, rfl, .wait hxs, .reject hreject⟩
    · rw [hstable xs ys hxs] at hreject
      exact Or.inr ⟨rfl, xs, .reject hreject⟩
  | take htake hrest ih =>
    rename_i count _ _ _
    subst hzs
    by_cases hxs : verdict xs = .wait
    · exact Or.inl ⟨[], _, xs, rfl, .wait hxs, .take htake hrest⟩
    · rw [hstable xs ys hxs] at htake
      have hcount := hbounded _ _ htake
      rw [List.take_append_of_le_length hcount]
      rcases ih (List.drop_append_of_le_length hcount).symm with
        ⟨first, second, middle, rfl, hfirst, hsecond⟩ | ⟨rfl, middle, hfirst⟩
      · exact Or.inl ⟨_ :: first, second, middle, rfl, .take htake hfirst, hsecond⟩
      · exact Or.inr ⟨rfl, middle, .take htake hfirst⟩

/-- A framer that never takes an empty frame comes to an end. -/
theorem exists_drains (hbounded : Bounded verdict)
    (hpos : ∀ xs count, verdict xs = .take count → 0 < count) (xs : List α) :
    ∃ frames ok rest, Drains verdict xs frames ok rest := by
  induction hlen : xs.length using Nat.strongRecOn generalizing xs with
  | ind n ih =>
    cases hverdict : verdict xs with
    | wait => exact ⟨[], true, xs, .wait hverdict⟩
    | reject => exact ⟨[], false, xs, .reject hverdict⟩
    | take count =>
      have hcount := hpos xs count hverdict
      have hle := hbounded xs count hverdict
      have hless : (xs.drop count).length < n := by
        rw [List.length_drop]
        omega
      obtain ⟨frames, ok, rest, hrest⟩ := ih _ hless _ rfl
      exact ⟨_, ok, rest, .take hverdict hrest⟩

/-- A frame at the front of the data is taken, and draining goes on behind it. -/
theorem Drains.cons (hstable : Stable verdict) {frame : List α}
    (hframe : verdict frame = .take frame.length) (h : Drains verdict xs frames ok rest) :
    Drains verdict (frame ++ xs) (frame :: frames) ok rest := by
  have hne : verdict frame ≠ .wait := by
    rw [hframe]
    intro hwait
    cases hwait
  have htake : verdict (frame ++ xs) = .take frame.length := by
    rw [hstable _ _ hne, hframe]
  have hdrains := Drains.take htake
    (show Drains verdict ((frame ++ xs).drop frame.length) frames ok rest by
      rwa [List.drop_left])
  rwa [List.take_left] at hdrains

theorem Drains.flatten_append (hstable : Stable verdict) {whole : List (List α)}
    (hframes : ∀ frame ∈ whole, verdict frame = .take frame.length)
    (h : Drains verdict xs frames ok rest) :
    Drains verdict (whole.flatten ++ xs) (whole ++ frames) ok rest := by
  induction whole with
  | nil => exact h
  | cons frame whole ih =>
    rw [List.flatten_cons, List.append_assoc]
    exact (ih fun f hf => hframes f (by simp [hf])).cons hstable (hframes frame (by simp))

/-- The first part of the frames of some items consists of whole frames and a proper part of the
next one. -/
theorem prefix_flatten {ι : Type*} {frame : ι → List α} {items : List ι}
    (h : xs <+: (items.map frame).flatten) :
    ∃ done next rest, items = done ++ next ∧ xs = (done.map frame).flatten ++ rest ∧
      (next = [] ∧ rest = [] ∨ ∃ item more, next = item :: more ∧ rest <+: frame item ∧
        rest.length < (frame item).length) := by
  induction items generalizing xs with
  | nil =>
    obtain rfl := List.prefix_nil.mp h
    exact ⟨[], [], [], rfl, rfl, Or.inl ⟨rfl, rfl⟩⟩
  | cons item items ih =>
    rw [List.map_cons, List.flatten_cons] at h
    rcases Nat.lt_or_ge xs.length (frame item).length with hlt | hge
    · refine ⟨[], item :: items, xs, rfl, rfl, Or.inr ⟨item, items, rfl, ?_, hlt⟩⟩
      exact List.prefix_of_prefix_length_le h (List.prefix_append _ _) (Nat.le_of_lt hlt)
    · obtain ⟨ys, rfl⟩ := List.prefix_of_prefix_length_le (List.prefix_append _ _) h hge
      obtain ⟨done, next, rest, rfl, rfl, hrest⟩ :=
        ih ((List.prefix_append_right_inj (frame item)).mp h)
      exact ⟨item :: done, next, rest, rfl, by simp, hrest⟩

/-- There are at most as many frames as items, if no frame is empty. -/
theorem length_le_flatten {whole : List (List α)} (h : ∀ frame ∈ whole, 0 < frame.length) :
    whole.length ≤ whole.flatten.length := by
  induction whole with
  | nil => exact Nat.le_refl _
  | cons frame whole ih =>
    have hfirst := h frame List.mem_cons_self
    have hrest := ih fun f hf => h f (List.mem_cons_of_mem _ hf)
    rw [List.flatten_cons, List.length_append, List.length_cons]
    omega

/-- A proper part of a frame waits for the rest. -/
theorem wait_of_part (hstable : Stable verdict) (hbounded : Bounded verdict)
    {frame part : List α} (hframe : verdict frame = .take frame.length) (hpart : part <+: frame)
    (hlt : part.length < frame.length) : verdict part = .wait := by
  by_contra hne
  obtain ⟨more, rfl⟩ := hpart
  -- otherwise the part alone would be taken at the length of the whole frame
  rw [hstable part more hne] at hframe
  have hle := hbounded _ _ hframe
  omega

/-- The first part of the frames of some items yields the whole frames in it, and leaves nothing or
a proper part of the next one. -/
theorem drains_of_flatten (hstable : Stable verdict) (hbounded : Bounded verdict)
    (hnil : verdict [] = .wait) {ι : Type*} {frame : ι → List α} {items : List ι}
    (hframes : ∀ item ∈ items, verdict (frame item) = .take (frame item).length)
    (h : xs ++ ys = (items.map frame).flatten) :
    ∃ done next rest, items = done ++ next ∧ Drains verdict xs (done.map frame) true rest ∧
      rest ++ ys = (next.map frame).flatten ∧
      (rest = [] ∨ ∃ item more, next = item :: more ∧ rest <+: frame item ∧
        rest.length < (frame item).length) := by
  obtain ⟨done, next, rest, rfl, rfl, hrest⟩ := prefix_flatten ⟨ys, h⟩
  rw [List.map_append, List.flatten_append, List.append_assoc, List.append_cancel_left_eq] at h
  have hend : (rest = [] ∨ ∃ item more, next = item :: more ∧ rest <+: frame item ∧
      rest.length < (frame item).length) ∧ verdict rest = .wait := by
    rcases hrest with ⟨_, rfl⟩ | ⟨item, more, rfl, hpart, hlt⟩
    · exact ⟨Or.inl rfl, hnil⟩
    · exact ⟨Or.inr ⟨item, more, rfl, hpart, hlt⟩,
        wait_of_part hstable hbounded (hframes item (by simp)) hpart hlt⟩
  have hwhole : ∀ bytes ∈ done.map frame, verdict bytes = .take bytes.length := by
    intro bytes hbytes
    obtain ⟨item, hitem, rfl⟩ := List.mem_map.mp hbytes
    exact hframes item (List.mem_append_left _ hitem)
  refine ⟨done, next, rest, rfl, ?_, h, hend.1⟩
  simpa using (Drains.wait hend.2).flatten_append hstable hwhole

end HakunaMatata.Base
