import HakunaMatata.Base.Framing

/-!
# Items that are under way

A sender writes the frames of some items one after the other, and a receiver cuts what has arrived
into frames again. `Transit` says which items were sent and not received yet. Sending adds items
at the end (`Transit.send`), and whatever part of the stream arrives next completes some items at
the front (`Transit.arrive`). Nothing is under way once everything has arrived
(`Transit.eq_nil`).
-/

namespace HakunaMatata.Base

variable {α ι : Type*}

/-- The frames of the items are what the receiver has buffered and what has not arrived yet, and
the buffer does not hold a whole frame. -/
structure Transit (verdict : List α → Verdict) (frame : ι → List α) (items : List ι)
    (buffered wire : List α) : Prop where
  stream : buffered ++ wire = (items.map frame).flatten
  waits : verdict buffered = .wait

variable {verdict : List α → Verdict} {frame : ι → List α} {items : List ι}
  {buffered wire : List α}

theorem Transit.nil (hnil : verdict [] = .wait) : Transit verdict frame [] [] [] :=
  ⟨rfl, hnil⟩

theorem Transit.send (h : Transit verdict frame items buffered wire) (more : List ι) :
    Transit verdict frame (items ++ more) buffered (wire ++ (more.map frame).flatten) := by
  refine ⟨?_, h.waits⟩
  rw [← List.append_assoc, h.stream, List.map_append, List.flatten_append]

/-- The next part of the stream arrives: the receiver takes the frames of the first items, and the
others are still under way. -/
theorem Transit.arrive (hstable : Stable verdict) (hbounded : Bounded verdict)
    (hnil : verdict [] = .wait)
    (hframes : ∀ item ∈ items, verdict (frame item) = .take (frame item).length)
    {chunk : List α} (h : Transit verdict frame items buffered (chunk ++ wire)) :
    ∃ done next rest, items = done ++ next ∧
      Drains verdict (buffered ++ chunk) (done.map frame) true rest ∧
      Transit verdict frame next rest wire := by
  have hstream := h.stream
  rw [← List.append_assoc] at hstream
  obtain ⟨done, next, rest, hitems, hdrains, hrest, _⟩ :=
    drains_of_flatten hstable hbounded hnil hframes hstream
  exact ⟨done, next, rest, hitems, hdrains, hrest, hdrains.waits⟩

/-- If everything has arrived, nothing is under way. -/
theorem Transit.eq_nil (hstable : Stable verdict)
    (hframes : ∀ item ∈ items, verdict (frame item) = .take (frame item).length)
    (h : Transit verdict frame items buffered []) : items = [] := by
  have hstream := h.stream
  have hwaits := h.waits
  cases items with
  | nil => rfl
  | cons item items =>
    -- the buffer begins with the frame of the first item, which would have been taken
    have hframe := hframes item List.mem_cons_self
    have htaken : verdict (frame item) ≠ .wait := by
      rw [hframe]
      exact nofun
    rw [List.append_nil, List.map_cons, List.flatten_cons] at hstream
    rw [hstream, hstable _ _ htaken, hframe] at hwaits
    cases hwaits

end HakunaMatata.Base
