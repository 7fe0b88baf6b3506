import HakunaMatata.Base.Memory

/-!
# Strings that end with a NUL

A `CString` is the characters before the NUL. A loop that moves a pointer on while the character
there satisfies a condition is `scan`: it fails if it leaves the buffer, and it stays in a buffer
that ends with a NUL if the condition does not hold for the NUL (`Terminated.scan`). `scan_eq`
is its result where the buffer is known in parts. `stringAt` is the string at a position.
-/

namespace HakunaMatata.Base

/-- The characters before the terminating NUL. -/
structure CString where
  chars : List UInt8
  no_nul : 0 ∉ chars
  deriving DecidableEq

/-- The bytes in memory. -/
def CString.bytes (s : CString) : List UInt8 :=
  s.chars ++ [0]

/-- `while (go(*p)) ++p;` over the part of the buffer from `p` on. -/
def scanFrom (go : UInt8 → Bool) : List UInt8 → Nat → Except Fault Nat
  | [], _ => .error .outOfBounds
  | c :: rest, p => if go c then scanFrom go rest (p + 1) else .ok p

/-- `while (go(*p)) ++p;` -/
def scan (go : UInt8 → Bool) (buf : List UInt8) (p : Nat) : Except Fault Nat :=
  scanFrom go (buf.drop p) p

/-- The string at a position of a buffer. -/
def stringAt (buf : List UInt8) (p : Nat) : List UInt8 :=
  (buf.drop p).takeWhile (· != 0)

section Parts

variable {go : UInt8 → Bool} {front rest : List UInt8} {c : UInt8}

theorem scanFrom_append (p : Nat) (hfront : ∀ x ∈ front, go x = true) (hstop : go c = false) :
    scanFrom go (front ++ c :: rest) p = .ok (p + front.length) := by
  induction front generalizing p with
  | nil => simp [scanFrom, hstop]
  | cons x front ih =>
    have hx : go x = true := hfront x List.mem_cons_self
    rw [List.cons_append, scanFrom, if_pos hx,
      ih (p + 1) fun y hy => hfront y (List.mem_cons_of_mem x hy), List.length_cons]
    congr 1
    omega

theorem scan_eq {buf : List UInt8} {p : Nat} (before front rest : List UInt8) (c : UInt8)
    (hbuf : buf = before ++ (front ++ c :: rest)) (hp : p = before.length)
    (hfront : ∀ x ∈ front, go x = true) (hstop : go c = false) :
    scan go buf p = .ok (p + front.length) := by
  subst hbuf hp
  rw [scan, List.drop_left, scanFrom_append _ hfront hstop]

theorem stringAt_append (before rest : List UInt8) (hfront : 0 ∉ front) :
    stringAt (before ++ (front ++ 0 :: rest)) before.length = front := by
  have hgo : ∀ x ∈ front, (x != 0) = true := by
    intro x hx
    rw [bne_iff_ne]
    rintro rfl
    exact hfront hx
  rw [stringAt, List.drop_left, List.takeWhile_append_of_pos hgo]
  simp

end Parts

/-- The buffer ends with a NUL, at this position. -/
structure Terminated (buf : List UInt8) (last : Nat) : Prop where
  length_eq : buf.length = last + 1
  nul : buf[last]? = some 0

section Terminated

variable {buf : List UInt8} {last p : Nat} {go : UInt8 → Bool}

theorem CString.terminated (s : CString) : Terminated s.bytes s.chars.length :=
  ⟨by rw [bytes, List.length_append, List.length_singleton], by simp [bytes]⟩

theorem Terminated.load (h : Terminated buf last) (hp : p ≤ last) :
    ∃ c, Base.load buf p = .ok c ∧ buf[p]? = some c := by
  have hlt : p < buf.length := by
    rw [h.length_eq]
    omega
  exact ⟨buf[p], load_of_lt hlt, List.getElem?_eq_getElem hlt⟩

theorem Terminated.lt_last (h : Terminated buf last) (hp : p ≤ last) {c : UInt8}
    (hc : buf[p]? = some c) (hne : c ≠ 0) : p < last := by
  rcases Nat.lt_or_eq_of_le hp with hlt | rfl
  · exact hlt
  · rw [h.nul] at hc
    exact absurd (Option.some.inj hc).symm hne

/-- Every position before the end can be overwritten, and the buffer still ends with the NUL. -/
theorem Terminated.store (h : Terminated buf last) (hp : p < last) (c : UInt8) :
    Base.store buf p c = .ok (buf.set p c) ∧ Terminated (buf.set p c) last := by
  have hlt : p < buf.length := by
    rw [h.length_eq]
    omega
  refine ⟨store_of_lt hlt c, by rw [List.length_set, h.length_eq], ?_⟩
  rw [List.getElem?_set_ne (by omega)]
  exact h.nul

/-- What a scan finds. -/
structure Found (go : UInt8 → Bool) (buf : List UInt8) (p found : Nat) : Prop where
  le : p ≤ found
  passed : ∀ j, p ≤ j → j < found → ∃ c, buf[j]? = some c ∧ go c = true
  stopped : ∃ c, buf[found]? = some c ∧ go c = false

/-- A scan that does not pass a NUL stays in the buffer. -/
theorem Terminated.scan (h : Terminated buf last) (hgo : go 0 = false) (hp : p ≤ last) :
    ∃ found, Base.scan go buf p = .ok found ∧ found ≤ last ∧ Found go buf p found := by
  induction hd : last - p generalizing p with
  | zero =>
    obtain rfl : p = last := by omega
    have hlt : p < buf.length := by
      rw [h.length_eq]
      omega
    have hnul : buf[p] = 0 := by
      have hget := h.nul
      rw [List.getElem?_eq_getElem hlt] at hget
      exact Option.some.inj hget
    refine ⟨p, ?_, Nat.le_refl p, Nat.le_refl p, fun j _ _ => by omega, 0, h.nul, hgo⟩
    rw [Base.scan, List.drop_eq_getElem_cons hlt, scanFrom, hnul, hgo]
    rfl
  | succ d ih =>
    have hlt : p < buf.length := by
      rw [h.length_eq]
      omega
    have hget : buf[p]? = some buf[p] := List.getElem?_eq_getElem hlt
    by_cases hc : go buf[p] = true
    · obtain ⟨found, hfound, hle, hspec⟩ := ih (show p + 1 ≤ last by omega) (by omega)
      refine ⟨found, ?_, hle, Nat.le_of_succ_le hspec.le, ?_, hspec.stopped⟩
      · rw [Base.scan, List.drop_eq_getElem_cons hlt, scanFrom, if_pos hc]
        exact hfound
      · intro j hpj hj
        rcases Nat.eq_or_lt_of_le hpj with rfl | hlt'
        · exact ⟨_, hget, hc⟩
        · exact hspec.passed j hlt' hj
    · refine ⟨p, ?_, hp, Nat.le_refl p, fun j _ _ => by omega, _, hget, by simpa using hc⟩
      rw [Base.scan, List.drop_eq_getElem_cons hlt, scanFrom, if_neg hc]

end Terminated

end HakunaMatata.Base
