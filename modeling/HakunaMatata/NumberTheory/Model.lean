import Mathlib.Data.Int.GCD

/-!
# Perfect squares, Euclid's algorithm and linear congruences, `utils.py`

`isSquare` searches a root by halving an interval, and `euclideanGcd` is Euclid's algorithm with
truncated quotients. Both are given the number of iterations that their loop may take, so that a
result says that the loop ends within this number.

`euclideanLinearCombination` runs Euclid's algorithm with truncated quotients and then derives an
equation for the last remainder, symbolically, from the quotients. An equation is the pair of its
coefficients. The coefficients are read off a polynomial in the symbols that occur in the
equation, by position, as in the source: if only one symbol occurs, its coefficient is taken for
the first one. `linearCongruence` solves `a * x = c` modulo `m`.
-/

namespace HakunaMatata.NumberTheory

/-- What a function raises. -/
inductive PyError where
  | exception (message : String)
  | typeError
  | generatorsNeeded
  deriving DecidableEq, Repr

/-- `int(x / y)`, with exact division. -/
def intDiv (x y : Int) : Int :=
  x.tdiv y

theorem sub_intDiv_mul (a b : Int) : a - intDiv a b * b = a.tmod b := by
  unfold intDiv
  rw [Int.tmod_def, Int.mul_comm]

/-- The loop of `is_square`, for at most as many iterations as the first argument says. -/
def isSquareLoop (n : Int) : Nat → Int → Int → Option Bool
  | 0, low, high => if low ≤ high then none else some false
  | limit + 1, low, high =>
    if low ≤ high then
      let mid := (low + high) / 2
      let power := mid * mid
      if power > n then isSquareLoop n limit low (mid - 1)
      else if power < n then isSquareLoop n limit (mid + 1) high
      else some true
    else some false

/-- `is_square`, if it returns within this many iterations of its loop. -/
def isSquare (limit : Nat) (n : Int) : Option Bool :=
  isSquareLoop n limit 1 n

/-- The loop of `euclidean_gcd`, for at most as many iterations as the first argument says. -/
def euclideanGcdLoop : Nat → Int → Int → Option Int
  | 0, a, b => if b ≠ 0 then none else some a
  | limit + 1, a, b =>
    if b ≠ 0 then
      let q := intDiv a b
      let r := a - q * b
      euclideanGcdLoop limit b r
    else some a

/-- `euclidean_gcd`, if it returns within this many iterations of its loop. -/
def euclideanGcd (limit : Nat) (a b : Int) : Option Int :=
  if a = 0 ∧ b = 0 then some 0
  else if a = 0 ∧ b ≠ 0 then some b
  else if a ≠ 0 ∧ b = 0 then some a
  else euclideanGcdLoop limit a b

/-- What the loop of Euclid's algorithm leaves: `q_list` and `g`. -/
structure Division where
  quotients : List Int
  g : Int
  deriving DecidableEq, Repr

/-- The loop of Euclid's algorithm. -/
def euclid (a b : Int) : Division :=
  if b = 0 then ⟨[], a⟩
  else
    let q := intDiv a b
    let r := a - q * b
    let rest := euclid b r
    ⟨q :: rest.quotients, rest.g⟩
termination_by b.natAbs
decreasing_by
  rw [sub_intDiv_mul, Int.natAbs_tmod]
  exact Nat.mod_lt _ (by omega)

/-- An entry of `eq_list`, the expression `x * a + y * b` of the symbols `a` and `b`. -/
structure Equation where
  x : Int
  y : Int
  deriving DecidableEq, Repr

/-- The expression `eq_list[i] - q * eq_list[i + 1]`. -/
def Equation.subMul (e₀ : Equation) (q : Int) (e₁ : Equation) : Equation :=
  ⟨e₀.x - q * e₁.x, e₀.y - q * e₁.y⟩

/-- `eq_list[-1]` after the loop over these quotients, when `eq_list` ends with these two. -/
def lastEquation : List Int → Equation → Equation → Equation
  | [], _, e₁ => e₁
  | q :: quotients, e₀, e₁ => lastEquation quotients e₁ (e₀.subMul q e₁)

/-- `Poly(e).as_dict()`: each monomial has one exponent for each symbol that occurs. -/
def asDict (e : Equation) : Except PyError (List (List Nat × Int)) :=
  if e.x ≠ 0 ∧ e.y ≠ 0 then .ok [([1, 0], e.x), ([0, 1], e.y)]
  else if e.x ≠ 0 then .ok [([1], e.x)]
  else if e.y ≠ 0 then .ok [([1], e.y)]
  else .error .generatorsNeeded

/-- The result of `euclidean_linear_combination`. -/
structure Combination where
  x1 : Option Int
  y1 : Option Int
  g : Int
  deriving DecidableEq, Repr

/-- The loop over the monomials. -/
def readCoefficients : List (List Nat × Int) → Combination → Combination
  | [], result => result
  | entry :: dict, result =>
    if entry.1[0]? = some 1 then readCoefficients dict { result with x1 := some entry.2 }
    else if entry.1[1]? = some 1 then readCoefficients dict { result with y1 := some entry.2 }
    else readCoefficients dict result

/-- `euclidean_linear_combination`. -/
def euclideanLinearCombination (a b : Int) : Except PyError Combination :=
  if a = 0 ∧ b = 0 then .ok ⟨some 0, some 0, 0⟩
  else if a = 0 then .ok ⟨some 0, some 1, b⟩
  else if b = 0 then .ok ⟨some 1, some 0, a⟩
  else do
    let division := euclid a b
    -- the last quotient, which leaves the remainder 0, has no equation
    let dict ← asDict (lastEquation division.quotients.dropLast ⟨1, 0⟩ ⟨0, 1⟩)
    pure (readCoefficients dict ⟨none, none, division.g⟩)

/-- `linear_congruence`. -/
def linearCongruence (a c m : Int) : Except PyError (List Int) :=
  if a = 0 ∨ m = 0 then .error (.exception "linear congruence input invalid arguments")
  else do
    let combination ← euclideanLinearCombination a m
    let g := combination.g
    if intDiv c g * g ≠ c then pure []
    else
      match combination.x1 with
      | none => .error .typeError
      | some u =>
        let x0 := intDiv (u * c) g
        pure ((List.range g.toNat).map fun k : Nat => x0 + intDiv (k * m) g)

end HakunaMatata.NumberTheory
